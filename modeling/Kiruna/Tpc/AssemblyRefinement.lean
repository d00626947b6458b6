import Kiruna.Tpc.Assembly
import Kiruna.Tpc.ChannelInvariant

/-!
# The executor over its channel refines the executor

Seen through `atomic`, a send takes effect at its push and a receive at its pop, and every other
step of a call stutters: a run over the channel is a run of the threads whose sends and receives
are indivisible. Seen through its channel, it is a run of the channel in which `recv_immediate` is
called for level 0 only, so that the receive calls do not panic.
-/

namespace Kiruna.Tpc

/-- The steps that the receive loop of a worker has at most to go, in a channel of `n` levels. -/
def RecvPc.toGo {α : Type*} (n : ℕ) : RecvPc α → ℕ
  | .immediate _ => n + 9
  | .immediateLocal _ => n + 8
  | .restore => n + 7
  | .returned none => n + 6
  | .all => n + 5
  | .scan l => n - l + 3
  | .pop _ => 2
  | .holding _ _ => 1
  | _ => 0

namespace Channel

variable {α : Type*} {bounded : ℕ} {s t : Channel α bounded}

theorem getElem?_contents (s : Channel α bounded) (l : ℕ) :
    s.contents[l]? = s.shared[l]?.map fun one => one.queue.map Message.element :=
  List.getElem?_map

/-- The queues do not depend on the semaphores. -/
theorem contents_set {l n : ℕ} {one : SharedOne α bounded} (hl : s.shared[l]? = some one) (g : ℕ)
    (senders : List (SendPc α)) (receivers : List (RecvPc α)) :
    contents ⟨s.shared.set l { one with localSemaphore := n }, g, senders, receivers⟩ =
      s.contents :=
  map_set_of_eq hl rfl

/-- What a step of a receive call does to the queues and to the calls. -/
inductive RecvMoves (s : Channel α bounded) (j : ℕ) (pc : RecvPc α) (t : Channel α bounded) : Prop
  | pop {l : ℕ} {m : Message α} (hpc : pc = .pop l) (ht : t.receivers = s.receivers.set j
      (.holding m l)) (hsenders : t.senders = s.senders)
      (hc : Received s.contents l m.element t.contents)
  | quiet {pc' : RecvPc α} (ht : t.receivers = s.receivers.set j pc')
      (hsenders : t.senders = s.senders) (hc : t.contents = s.contents)
      (hpc : ∀ m l, pc ≠ .holding m l) (hholding : ∀ m l, pc' ≠ .holding m l)
      (hreturned : ∀ r, pc' ≠ .returned (some r))
      (hlt : pc'.toGo s.shared.length < pc.toGo s.shared.length)
  | returned {m : Message α} {l : ℕ} (hpc : pc = .holding m l)
      (ht : t.receivers = s.receivers.set j (.returned (some (m, l))))
      (hsenders : t.senders = s.senders) (hc : t.contents = s.contents)

theorem recvMoves_of_recvNonblock {j l : ℕ} {pc onEmpty : RecvPc α} {one : SharedOne α bounded}
    (hl : s.shared[l]? = some one) (hpc : ∀ m l, pc ≠ .holding m l)
    (hholding : ∀ m l, onEmpty ≠ .holding m l) (hreturned : ∀ r, onEmpty ≠ .returned (some r))
    (hlt : onEmpty.toGo s.shared.length < pc.toGo s.shared.length)
    (htwo : 2 < pc.toGo s.shared.length) : RecvMoves s j pc (s.recvNonblock j l one onEmpty) := by
  unfold recvNonblock
  split
  · exact .quiet rfl rfl rfl hpc hholding hreturned hlt
  · exact .quiet rfl rfl (contents_set hl _ _ _) hpc (by simp) (by simp) htwo

theorem recvMoves_of_recvStep {j : ℕ} {pc : RecvPc α} (h : s.recvStep j pc = some t) :
    RecvMoves s j pc t := by
  cases pc with
  | immediate l =>
      simp only [recvStep] at h
      split at h <;> cases h
      · exact .quiet rfl rfl rfl (by simp) (by simp) (by simp) (by simp [RecvPc.toGo])
      · exact .quiet rfl rfl rfl (by simp) (by simp) (by simp) (by simp [RecvPc.toGo])
  | immediateLocal l =>
      simp only [recvStep] at h
      split at h <;> cases h
      · exact .quiet rfl rfl rfl (by simp) (by simp) (by simp) (by simp [RecvPc.toGo])
      · exact recvMoves_of_recvNonblock ‹_› (by simp) (by simp) (by simp) (by simp [RecvPc.toGo])
          (by simp [RecvPc.toGo])
  | restore =>
      cases h
      exact .quiet rfl rfl rfl (by simp) (by simp) (by simp) (by simp [RecvPc.toGo])
  | all =>
      simp only [recvStep] at h
      split at h <;> cases h
      exact .quiet rfl rfl rfl (by simp) (by simp) (by simp) (by simp [RecvPc.toGo])
  | scan l =>
      simp only [recvStep] at h
      split at h <;> cases h
      · exact .quiet rfl rfl rfl (by simp) (by simp) (by simp) (by simp [RecvPc.toGo])
      · rename_i one hl
        have hlt := (List.getElem?_eq_some_iff.mp hl).1
        refine recvMoves_of_recvNonblock hl (by simp) (by simp) (by simp) ?_ ?_ <;>
          simp only [RecvPc.toGo] <;> omega
  | pop l =>
      simp only [recvStep] at h
      split at h
      · cases h
      · rename_i one hl
        split at h <;> cases h
        · exact .quiet rfl rfl rfl (by simp) (by simp) (by simp) (by simp [RecvPc.toGo])
        · rename_i m q hq
          refine .pop rfl rfl rfl ⟨one.queue.map Message.element, q.map Message.element, ?_, ?_, ?_⟩
          · rw [getElem?_contents, hl, Option.map_some]
          · rw [Fifo.items_map, Fifo.pop_eq_some.mp hq, List.map_cons, Fifo.items_map]
          · exact List.map_set
  | holding m l =>
      cases h
      exact .returned rfl rfl rfl rfl
  | returned r => cases h
  | noElementFound => cases h
  | unwrapNone => cases h
  | indexOutOfBounds => cases h

/-- A signal changes no queue. -/
theorem contents_of_signal {i : ℕ} {pc : SendPc α} (hpc : ∀ m l, pc ≠ .push m l)
    (h : s.sendStep i pc = some t) :
    t.contents = s.contents ∧ t.receivers = s.receivers ∧
      ∃ pc', t.senders = s.senders.set i pc' ∧ ∀ m l, pc' ≠ .push m l := by
  cases pc with
  | push m l => exact absurd rfl (hpc m l)
  | signalLocal m l =>
      simp only [sendStep] at h
      split at h <;> cases h
      exact ⟨contents_set ‹_› _ _ _, rfl, _, rfl, by simp⟩
  | signalGlobal m l =>
      cases h
      exact ⟨rfl, rfl, _, rfl, by simp⟩
  | returned m l => cases h
  | panicked => cases h

end Channel

namespace Assembly

open Lts (Free)

variable {Fut Job Local State Action : Type*} {bounded : ℕ} {cpus : UInt16}
  {C : Client Fut Job Local State Action Empty} {s t : Assembly Fut Job Local State bounded}
  {a : AssemblyLabel Fut Job Action} {h : List (AssemblyLabel Fut Job Action)}
  {ok : Assembly Fut Job Local State bounded → AssemblyLabel Fut Job Action → Prop}

theorem list_set_append {β : Type*} (l : List β) (b b' : β) :
    (l ++ [b]).set l.length b' = l ++ [b'] := by
  rw [List.set_append_right _ _ le_rfl, Nat.sub_self, List.set_cons_zero]

/-- What a push does, whether it finds a place or not. -/
theorem exists_push (s : Assembly Fut Job Local State bounded) (m : ThreadMessage Job)
    (level : ℕ) : ∃ c pc, s.push m level = some c ∧
      c.contents = (s.atomic.bin.send m level).getD s.channel.contents ∧
      c.receivers = s.channel.receivers ∧ c.senders = s.channel.senders ++ [pc] ∧
      ∀ m l, pc ≠ .push m l := by
  have hlast : (s.channel.senders ++ [.push ⟨s.channel.senders.length, m⟩ level])[
      s.channel.senders.length]? = some (.push ⟨s.channel.senders.length, m⟩ level) :=
    List.getElem?_concat_length
  have hsend : s.atomic.bin.send m level = s.channel.contents[level]?.bind fun q =>
      (q.push m).map fun q' => s.channel.contents.set level q' := by
    change Bin.send ⟨s.channel.contents, _, _, _⟩ m level = _
    unfold Bin.send
    cases s.channel.contents[level]? <;> rfl
  simp only [push, Channel.step, Option.bind_some, hlast, Channel.sendStep, list_set_append]
  rw [hsend, Channel.getElem?_contents]
  cases hl : s.channel.shared[level]? with
  | none => exact ⟨_, _, rfl, rfl, rfl, rfl, by simp⟩
  | some one =>
      dsimp only [Option.map_some, Option.bind_some]
      cases hq : one.queue.push ⟨s.channel.senders.length, m⟩ with
      | none =>
          have hfull : (one.queue.map Message.element).push m = none := by
            rw [Fifo.push_eq_none] at hq ⊢
            rw [Fifo.items_map, List.length_map, hq]
          rw [hfull]
          exact ⟨_, _, rfl, rfl, rfl, rfl, by simp⟩
      | some q =>
          have hroom : (one.queue.map Message.element).push m = some (q.map Message.element) := by
            rw [Fifo.push_eq_some] at hq ⊢
            rw [Fifo.items_map, List.length_map, Fifo.items_map, hq.2, List.map_append]
            exact ⟨hq.1, rfl⟩
          rw [hroom]
          exact ⟨_, _, rfl, List.map_set, rfl, rfl, by simp⟩

/-- The place of a worker in a receive call: it waits for a message, or has taken it. -/
def place (C : Client Fut Job Local State Action Empty) :
    RecvPc (ThreadMessage Job) → WorkerPc Local
  | .holding m _ => Bin.handle C m.element
  | _ => .recv

/-- How the calls of the channel belong to the workers. -/
structure Linked (C : Client Fut Job Local State Action Empty)
    (s : Assembly Fut Job Local State bounded) : Prop where
  pushed : ∀ pc ∈ s.channel.senders, ∀ m l, pc ≠ .push m l
  receiving : ∀ w j : ℕ, s.receiving w = some j → ∃ pc, s.channel.receivers[j]? = some pc ∧
    s.threads.bin.workers[w]? = some (place C pc) ∧ ∀ r, pc ≠ .returned (some r)
  distinct : ∀ w w' j : ℕ, s.receiving w = some j → s.receiving w' = some j → w = w'
  owned : ∀ (j : ℕ) (pc : RecvPc (ThreadMessage Job)), s.channel.receivers[j]? = some pc →
    (∀ r, pc ≠ .returned r) → ∃ w, s.receiving w = some j

theorem linked_new (C : Client Fut Job Local State Action Empty) (bounded : ℕ) :
    Linked C (new C cpus bounded) where
  pushed := fun _ hpc => absurd hpc List.not_mem_nil
  receiving := by simp [new]
  distinct := by simp [new]
  owned := by simp [new, Channel.new]

/-- A worker that is available is in no receive call. -/
theorem receiving_of_available {w : ℕ} (hw : s.available (.worker w) = true) :
    s.receiving w = none := by
  simp only [available, Bool.and_eq_true, Option.isNone_iff_eq_none] at hw
  exact hw.2

/-- A step outside the receive calls keeps the workers that are in one where they are. -/
theorem Linked.frame (hs : Linked C s) (hreceiving : t.receiving = s.receiving)
    (hreceivers : t.channel.receivers = s.channel.receivers)
    (hsenders : ∀ pc ∈ t.channel.senders, ∀ m l, pc ≠ .push m l)
    (hworkers : ∀ w j pc, s.receiving w = some j → s.threads.bin.workers[w]? = some pc →
      t.threads.bin.workers[w]? = some pc) : Linked C t where
  pushed := hsenders
  receiving := by
    intro w j hw
    rw [hreceiving] at hw
    obtain ⟨pc, hj, hpc, hne⟩ := hs.receiving w j hw
    exact ⟨pc, by rw [hreceivers, hj], hworkers w j _ hw hpc, hne⟩
  distinct := by
    rw [hreceiving]
    exact hs.distinct
  owned := by
    rw [hreceiving, hreceivers]
    exact hs.owned

/-- A worker begins a receive call: its first, or `recv_all` after a `recv_immediate` that has
returned nothing. -/
theorem Linked.begin (hs : Linked C s) {w : ℕ} (pc : RecvPc (ThreadMessage Job))
    (hw : s.threads.bin.workers[w]? = some .recv)
    (hold : ∀ j, s.receiving w = some j → s.channel.receivers[j]? = some (.returned none))
    (hplace : place C pc = .recv) (hne : ∀ r, pc ≠ .returned r)
    (hthreads : t.threads = s.threads) (hsenders : t.channel.senders = s.channel.senders)
    (hreceivers : t.channel.receivers = s.channel.receivers ++ [pc])
    (hreceiving : t.receiving = Function.update s.receiving w (some s.channel.receivers.length)) :
    Linked C t := by
  have hlt : ∀ w' j, s.receiving w' = some j → j < s.channel.receivers.length := by
    intro w' j hw'
    obtain ⟨pc', hj, -⟩ := hs.receiving w' j hw'
    exact (List.getElem?_eq_some_iff.mp hj).1
  have hcases : ∀ w' j, t.receiving w' = some j →
      w' = w ∧ j = s.channel.receivers.length ∨ w' ≠ w ∧ s.receiving w' = some j := by
    intro w' j hw'
    rw [hreceiving] at hw'
    by_cases heq : w' = w
    · subst heq
      rw [Function.update_self] at hw'
      exact .inl ⟨rfl, (Option.some.inj hw').symm⟩
    · rw [Function.update_of_ne heq] at hw'
      exact .inr ⟨heq, hw'⟩
  refine ⟨?_, ?_, ?_, ?_⟩
  · rw [hsenders]
    exact hs.pushed
  · intro w' j hw'
    rw [hthreads, hreceivers]
    rcases hcases w' j hw' with ⟨rfl, rfl⟩ | ⟨-, hw'⟩
    · refine ⟨pc, List.getElem?_concat_length, ?_, fun r => hne (some r)⟩
      rw [hplace, hw]
    · obtain ⟨pc', hj, hpc', hne'⟩ := hs.receiving w' j hw'
      exact ⟨pc', (List.getElem?_append_left (hlt w' j hw')).trans hj, hpc', hne'⟩
  · intro w₁ w₂ j hw₁ hw₂
    rcases hcases w₁ j hw₁ with ⟨rfl, rfl⟩ | ⟨-, hw₁⟩ <;>
      rcases hcases w₂ _ hw₂ with ⟨rfl, heq⟩ | ⟨-, hw₂⟩
    · rfl
    · exact absurd (hlt _ _ hw₂) (Nat.lt_irrefl _)
    · exact absurd (heq ▸ hlt _ _ hw₁) (Nat.lt_irrefl _)
    · exact hs.distinct w₁ w₂ j hw₁ hw₂
  · intro j pc' hj hpc'
    rw [hreceivers] at hj
    rw [hreceiving]
    rcases getElem?_append_cases hj with hj | ⟨rfl, rfl⟩
    · obtain ⟨w', hw'⟩ := hs.owned j pc' hj hpc'
      refine ⟨w', ?_⟩
      rw [Function.update_of_ne, hw']
      rintro rfl
      rw [hold j hw'] at hj
      exact hpc' none (Option.some.inj hj).symm
    · exact ⟨w, Function.update_self _ _ _⟩

/-- A worker stays in its receive call. -/
theorem Linked.stay (hs : Linked C s) {w j : ℕ} {pc pc' : RecvPc (ThreadMessage Job)}
    (hw : s.receiving w = some j) (hj : s.channel.receivers[j]? = some pc)
    (hpc' : ∀ r, pc' ≠ .returned (some r)) (hreceiving : t.receiving = s.receiving)
    (hreceivers : t.channel.receivers = s.channel.receivers.set j pc')
    (hsenders : t.channel.senders = s.channel.senders)
    (hplace : t.threads.bin.workers[w]? = some (place C pc'))
    (hworkers : ∀ w', w' ≠ w → t.threads.bin.workers[w']? = s.threads.bin.workers[w']?) :
    Linked C t where
  pushed := by
    rw [hsenders]
    exact hs.pushed
  receiving := by
    intro w' j' hw'
    rw [hreceiving] at hw'
    rw [hreceivers]
    by_cases heq : w' = w
    · subst heq
      obtain rfl : j' = j := Option.some.inj (hw'.symm.trans hw)
      refine ⟨pc', ?_, hplace, hpc'⟩
      rw [List.getElem?_set_self (List.getElem?_eq_some_iff.mp hj).1]
    · obtain ⟨pc₁, hj', hpc₁, hne⟩ := hs.receiving w' j' hw'
      refine ⟨pc₁, ?_, (hworkers w' heq).trans hpc₁, hne⟩
      rw [List.getElem?_set_ne, hj']
      rintro rfl
      exact heq (hs.distinct w' w j hw' hw)
  distinct := by
    rw [hreceiving]
    exact hs.distinct
  owned := by
    intro j' pc₁ hj' hne
    rw [hreceiving]
    rw [hreceivers] at hj'
    rcases getElem?_set_cases hj' with ⟨rfl, -⟩ | ⟨-, hj'⟩
    · exact ⟨w, hw⟩
    · exact hs.owned j' pc₁ hj' hne

/-- The receive call of a worker returns with a message. -/
theorem Linked.leave (hs : Linked C s) {w j : ℕ} {r : Option (Message (ThreadMessage Job) × ℕ)}
    (hw : s.receiving w = some j) (hreceiving : t.receiving = Function.update s.receiving w none)
    (hreceivers : t.channel.receivers = s.channel.receivers.set j (.returned r))
    (hsenders : t.channel.senders = s.channel.senders)
    (hworkers : t.threads = s.threads) : Linked C t := by
  have hcases : ∀ w' j', t.receiving w' = some j' → w' ≠ w ∧ s.receiving w' = some j' := by
    intro w' j' hw'
    rw [hreceiving] at hw'
    by_cases heq : w' = w
    · subst heq
      rw [Function.update_self] at hw'
      cases hw'
    · rw [Function.update_of_ne heq] at hw'
      exact ⟨heq, hw'⟩
  refine ⟨?_, ?_, ?_, ?_⟩
  · rw [hsenders]
    exact hs.pushed
  · intro w' j' hw'
    rw [hreceivers, hworkers]
    obtain ⟨heq, hw'⟩ := hcases w' j' hw'
    obtain ⟨pc, hj, hpc, hne⟩ := hs.receiving w' j' hw'
    refine ⟨pc, ?_, hpc, hne⟩
    rw [List.getElem?_set_ne, hj]
    rintro rfl
    exact heq (hs.distinct w' w j hw' hw)
  · intro w₁ w₂ j' hw₁ hw₂
    exact hs.distinct w₁ w₂ j' (hcases w₁ j' hw₁).2 (hcases w₂ j' hw₂).2
  · intro j' pc hj' hne
    rw [hreceivers] at hj'
    rcases getElem?_set_cases hj' with ⟨rfl, rfl⟩ | ⟨hj, hj'⟩
    · exact absurd rfl (hne r)
    · obtain ⟨w', hw'⟩ := hs.owned j' pc hj' hne
      refine ⟨w', ?_⟩
      rw [hreceiving, Function.update_of_ne, hw']
      rintro rfl
      exact hj (Option.some.inj (hw'.symm.trans hw))

/-- A worker that waits in a receive call waits in the receive of the bin, and its call is the one
that it is in. -/
theorem Linked.waiting (hs : Linked C s) {w j : ℕ} {pc : RecvPc (ThreadMessage Job)}
    (hw : s.receiving w = some j) (hj : s.channel.receivers[j]? = some pc)
    (hpc : ∀ m l, pc ≠ .holding m l) : s.threads.bin.workers[w]? = some .recv := by
  obtain ⟨pc', hj', hplace, -⟩ := hs.receiving w j hw
  obtain rfl : pc' = pc := Option.some.inj (hj'.symm.trans hj)
  rw [hplace]
  cases pc' with
  | holding m l => exact absurd rfl (hpc m l)
  | _ => rfl

/-- The steps of the threads that are not receives. -/
def outside (h : List (ThreadsLabel Fut Job Action)) : List (ThreadsLabel Fut Job Action) :=
  h.filter fun a => !a.receives

/-- What one step can do, with its paths in the threads and in the channel. -/
structure Refines (C : Client Fut Job Local State Action Empty) (cpus : UInt16)
    (s : Assembly Fut Job Local State bounded) (a : AssemblyLabel Fut Job Action)
    (t : Assembly Fut Job Local State bounded) : Prop where
  atomic : ∃ h', (Threads.system C cpus bounded).Path Free s.atomic h' t.atomic ∧
    outside h' = a.event.toList
  channel : ∃ h', (Channel.system (ThreadMessage Job) bounded 2).Path Channel.OnlyLevelZero
    s.channel h' t.channel
  linked : Linked C t

/-- Nothing happens in the threads. -/
theorem path_of_contents (hthreads : t.threads = s.threads)
    (hcontents : t.channel.contents = s.channel.contents) :
    ∃ h', (Threads.system C cpus bounded).Path Free s.atomic h' t.atomic ∧
      outside h' = [] := by
  have heq : t.atomic = s.atomic := by rw [atomic, atomic, hthreads, hcontents]
  rw [heq]
  exact ⟨[], .refl, rfl⟩

theorem received_holding {w j l : ℕ} {m : Message (ThreadMessage Job)}
    {c : Channel (ThreadMessage Job) bounded} (hj : c.receivers[j]? = some (.holding m l)) :
    s.received C w j c = { s with
      threads := s.threads.setBin (s.threads.bin.setWorker w (Bin.handle C m.element))
      channel := c } := by
  simp only [received, hj]

theorem received_returned {w j : ℕ} {r : Message (ThreadMessage Job) × ℕ}
    {c : Channel (ThreadMessage Job) bounded}
    (hj : c.receivers[j]? = some (.returned (some r))) :
    s.received C w j c = { s with
      channel := c
      receiving := Function.update s.receiving w none } := by
  simp only [received, hj]

theorem received_quiet {w j : ℕ} {pc : RecvPc (ThreadMessage Job)}
    {c : Channel (ThreadMessage Job) bounded} (hj : c.receivers[j]? = some pc)
    (hholding : ∀ m l, pc ≠ .holding m l) (hreturned : ∀ r, pc ≠ .returned (some r)) :
    s.received C w j c = { s with channel := c } := by
  simp only [received, hj]
  cases pc with
  | holding m l => exact absurd rfl (hholding m l)
  | returned r =>
      cases r with
      | none => rfl
      | some r => exact absurd rfl (hreturned r)
  | _ => rfl

theorem refines_of_received (hs : Linked C s) {w j : ℕ} {c : Channel (ThreadMessage Job) bounded}
    (hw : s.receiving w = some j) (hst : s.channel.step (.recvStep j) = some c) :
    Refines C cpus s (.recvStep w) (s.received C w j c) := by
  have hchannel : ∃ h', (Channel.system (ThreadMessage Job) bounded 2).Path Channel.OnlyLevelZero
      s.channel h' c := ⟨[.recvStep j], .single trivial hst⟩
  obtain ⟨pc, hj, hstep⟩ := Option.bind_eq_some_iff.mp hst
  have hlt := (List.getElem?_eq_some_iff.mp hj).1
  have hat : ∀ pc', c.receivers = s.channel.receivers.set j pc' → c.receivers[j]? = some pc' := by
    intro pc' hpc'
    rw [hpc', List.getElem?_set_self hlt]
  cases Channel.recvMoves_of_recvStep hstep with
  | @pop l m hpc ht hsenders hc =>
      subst hpc
      have hrecv := hs.waiting hw hj (by simp)
      rw [received_holding (hat _ ht)]
      refine ⟨⟨[.bin (.work w (.recv l))], .single trivial ?_, rfl⟩, hchannel, ?_⟩
      · have hworkers : s.atomic.bin.workers[w]? = some .recv := hrecv
        have hqueue : s.atomic.bin.receive l = some (m.element, c.contents) :=
          Bin.receive_eq_some.mpr hc
        simp only [Threads.system, Threads.step, Bin.step, hworkers, Option.bind_some,
          Bin.workStep, hqueue, Option.map_some]
        rfl
      · refine hs.stay hw hj (by simp) rfl ht hsenders ?_ ?_
        · exact List.getElem?_set_self (List.getElem?_eq_some_iff.mp hrecv).1
        · intro w' hw'
          exact List.getElem?_set_ne (Ne.symm hw')
  | @quiet pc' ht hsenders hc hpc hholding hreturned hlt =>
      rw [received_quiet (hat _ ht) hholding hreturned]
      refine ⟨path_of_contents rfl hc, hchannel, ?_⟩
      refine hs.stay hw hj hreturned rfl ht hsenders ?_ fun _ _ => rfl
      have hplace : place C pc' = .recv := by
        cases pc' with
        | holding m l => exact absurd rfl (hholding m l)
        | _ => rfl
      rw [hplace]
      exact hs.waiting hw hj hpc
  | @returned m l hpc ht hsenders hc =>
      rw [received_returned (hat _ ht)]
      exact ⟨path_of_contents rfl hc, hchannel, hs.leave hw rfl ht hsenders rfl⟩

theorem atomic_eq (ht : t.threads.bin.channel = t.channel.contents) : t.atomic = t.threads := by
  rw [atomic, ← ht]
  rfl

/-- The step of a worker finds it in no receive call. -/
theorem receiving_of_party {a : ThreadsLabel Fut Job Action} (ha : a.party.all s.available = true)
    {w : ℕ} (hw : a.worker = some w) : s.receiving w = none := by
  have hparty : a.party = some (.worker w) := by
    cases a with
    | idle w' elapsed =>
        cases hw
        rfl
    | bin e =>
        cases e with
        | work w' e =>
            cases hw
            rfl
        | _ => cases hw
    | _ => cases hw
  rw [hparty, Option.all_some] at ha
  exact receiving_of_available ha

theorem refines_of_threads (hs : Linked C s) {a : ThreadsLabel Fut Job Action}
    (hst : s.step C (.threads a) = some t) : Refines C cpus s (.threads a) t := by
  simp only [step] at hst
  split_ifs at hst with hcond
  obtain ⟨hrecv, hparty⟩ := hcond
  obtain ⟨u, hu, hst⟩ := Option.bind_eq_some_iff.mp hst
  have hchannel := Threads.channel_of_step hrecv hu
  have hworkers : ∀ w j pc, s.receiving w = some j → s.threads.bin.workers[w]? = some pc →
      u.bin.workers[w]? = some pc := by
    intro w j pc hw hpc
    refine Threads.worker_of_step ?_ hu hpc
    intro heq
    rw [receiving_of_party hparty heq] at hw
    cases hw
  have hpath : ∀ t : Assembly Fut Job Local State bounded, t.atomic = u →
      ∃ h', (Threads.system C cpus bounded).Path Free s.atomic h' t.atomic ∧ outside h' = [a] := by
    intro t ht
    rw [ht]
    refine ⟨[a], .single trivial hu, ?_⟩
    rw [outside, List.filter_singleton, hrecv]
    rfl
  simp only [threadsStep] at hst
  cases hm : s.atomic.sending C a with
  | none =>
      rw [hm] at hst hchannel
      cases hst
      refine ⟨hpath _ (atomic_eq hchannel), ⟨[], .refl⟩, ?_⟩
      exact hs.frame rfl rfl hs.pushed hworkers
  | some m =>
      rw [hm, Option.bind_some] at hchannel
      rw [hm] at hst
      obtain ⟨c, pc, hpush, hcontents, hreceivers, hsenders, hpc⟩ := exists_push s m.1 m.2
      simp only [hpush, Option.map_some, Option.some.injEq] at hst
      subst hst
      have hcalls : ∃ h', (Channel.system (ThreadMessage Job) bounded 2).Path
          Channel.OnlyLevelZero s.channel h' c := by
        obtain ⟨c', hsend, hstep⟩ := Option.bind_eq_some_iff.mp hpush
        exact ⟨[.sendStep s.channel.senders.length, .send m.1 m.2],
          .snoc (.single trivial hsend) trivial hstep⟩
      refine ⟨hpath _ (atomic_eq (hchannel.trans hcontents.symm)), hcalls, ?_⟩
      refine hs.frame rfl hreceivers ?_ hworkers
      intro pc' hpc'
      rw [hsenders] at hpc'
      rcases List.mem_append.mp hpc' with hpc' | hpc'
      · exact hs.pushed pc' hpc'
      · rw [List.mem_singleton.mp hpc']
        exact hpc

theorem refines_of_step (hs : Linked C s) (hst : s.step C a = some t) :
    Refines C cpus s a t := by
  cases a with
  | threads a => exact refines_of_threads hs hst
  | signal i =>
      simp only [step] at hst
      cases hi : s.channel.senders[i]? with
      | none => simp [hi] at hst
      | some pc =>
          have hpc := hs.pushed pc (List.mem_of_getElem? hi)
          have hmap : (s.channel.step (.sendStep i)).map (fun c => { s with channel := c }) =
              some t := by
            cases pc with
            | push m l => exact absurd rfl (hpc m l)
            | signalLocal m l | signalGlobal m l => simpa only [hi] using hst
            | returned m l | panicked => simp [hi] at hst
          obtain ⟨c, hc, rfl⟩ := Option.map_eq_some_iff.mp hmap
          have hsend := hc
          simp only [Channel.step, hi, Option.bind_some] at hsend
          obtain ⟨hcontents, hreceivers, pc', hsenders, hpc'⟩ :=
            Channel.contents_of_signal hpc hsend
          refine ⟨path_of_contents rfl hcontents, ⟨[.sendStep i], .single trivial hc⟩, ?_⟩
          refine hs.frame rfl hreceivers ?_ fun _ _ _ _ hw => hw
          rw [hsenders]
          exact forall_mem_set hs.pushed hpc'
  | recvImmediate w =>
      simp only [step] at hst
      split at hst
      · rename_i hw
        split_ifs at hst with havailable
        cases hst
        refine ⟨path_of_contents rfl rfl, ⟨[.recvImmediate 0], .single rfl rfl⟩, ?_⟩
        refine hs.begin (.immediate 0) hw ?_ rfl (by simp) rfl rfl rfl rfl
        intro j hj
        rw [receiving_of_available havailable] at hj
        cases hj
      · cases hst
  | recvAll w =>
      simp only [step] at hst
      split at hst
      · rename_i hj
        obtain ⟨j, hw, hj⟩ := Option.bind_eq_some_iff.mp hj
        cases hst
        refine ⟨path_of_contents rfl rfl, ⟨[.recvAll], .single trivial rfl⟩, ?_⟩
        refine hs.begin .all (hs.waiting hw hj (by simp)) ?_ rfl (by simp) rfl rfl rfl rfl
        intro j' hj'
        obtain rfl : j' = j := Option.some.inj (hj'.symm.trans hw)
        exact hj
      · cases hst
  | recvStep w =>
      obtain ⟨j, hw, hst⟩ := Option.bind_eq_some_iff.mp hst
      obtain ⟨c, hc, rfl⟩ := Option.map_eq_some_iff.mp hst
      exact refines_of_received hs hw hc

theorem linked_of_run (hr : (system C cpus bounded).Run ok h s) : Linked C s :=
  hr.invariant (P := Linked C)
    (fun _ _ _ hs _ hst => (refines_of_step hs hst : Refines C cpus _ _ _).linked)
    (linked_new C bounded)

/-- The steps of the threads happen in the same order, with the receives among them. -/
theorem threads_of_run (hr : (system C cpus bounded).Run ok h s) :
    ∃ h', (Threads.system C cpus bounded).Run Free h' s.atomic ∧
      outside h' = h.filterMap AssemblyLabel.event := by
  refine hr.map atomic (R := fun h h' => outside h' = h.filterMap AssemblyLabel.event) rfl ?_
  intro h t a u ht _ hst
  obtain ⟨h₂, hp, hout⟩ := (refines_of_step (linked_of_run ht) hst).atomic
  refine ⟨h₂, hp, fun h₁ hh₁ => ?_⟩
  rw [outside, List.filter_append]
  change outside h₂ ++ outside h₁ = _
  rw [hout, hh₁, List.filterMap_cons]
  cases a.event <;> rfl

theorem channel_of_run (hr : (system C cpus bounded).Run ok h s) :
    ∃ h', (Channel.system (ThreadMessage Job) bounded 2).Run Channel.OnlyLevelZero h' s.channel :=
  hr.exists_map channel fun _ _ _ _ ht _ hst =>
    (refines_of_step (linked_of_run ht) hst : Refines C cpus _ _ _).channel

/-- The executor over its channel does what the executor does, and its receive calls, which belong
to one worker each, do not panic. -/
structure Implements (C : Client Fut Job Local State Action Empty) (cpus : UInt16)
    (h : List (AssemblyLabel Fut Job Action)) (s : Assembly Fut Job Local State bounded) :
    Prop where
  threads : ∃ h', (Threads.system C cpus bounded).Run Free h' s.atomic ∧
    outside h' = h.filterMap AssemblyLabel.event
  channel : ∃ h', (Channel.system (ThreadMessage Job) bounded 2).Run Channel.OnlyLevelZero h'
    s.channel
  calls : ∀ w j : ℕ, s.receiving w = some j → ∃ pc, s.channel.receivers[j]? = some pc ∧
    pc.Unpanicked ∧ s.threads.bin.workers[w]? = some (place C pc)
  distinct : ∀ w w' j : ℕ, s.receiving w = some j → s.receiving w' = some j → w = w'
  owned : ∀ (j : ℕ) (pc : RecvPc (ThreadMessage Job)), s.channel.receivers[j]? = some pc →
    (∀ r, pc ≠ .returned r) → ∃ w, s.receiving w = some j

theorem implements_of_run (hr : (system C cpus bounded).Run ok h s) : Implements C cpus h s where
  threads := threads_of_run hr
  channel := channel_of_run hr
  calls := by
    intro w j hw
    obtain ⟨h', hc⟩ := channel_of_run hr
    obtain ⟨pc, hj, hplace, -⟩ := (linked_of_run hr).receiving w j hw
    exact ⟨pc, hj, ((Channel.inv_of_run hc).sound pc (List.mem_of_getElem? hj)).unpanicked, hplace⟩
  distinct := (linked_of_run hr).distinct
  owned := (linked_of_run hr).owned

/-- One worker for one job. It waits in `recv_all` when the job is pushed, and waits again when the
job has returned. -/
def oneJob : List (AssemblyLabel Empty Unit Empty) :=
  [.threads (.enter (.spawnMixedSimple [()])), .threads (.call 0), .threads (.call 0),
    .threads (.call 0), .recvImmediate 0, .recvStep 0, .recvAll 0, .threads (.call 0), .signal 0,
    .signal 0, .recvStep 0, .recvStep 0, .recvStep 0, .recvStep 0, .recvStep 0,
    .threads (.bin (.work 0 .returned)), .recvImmediate 0, .recvStep 0, .recvAll 0]

def afterOneJob : Assembly Empty Unit Unit Unit 1 where
  threads := ⟨⟨1, 1⟩, ⟨[.empty, .empty], [], [.recv], ()⟩, [.send []], []⟩
  channel := ⟨[⟨.empty, 0⟩, ⟨.empty, 0⟩], 0, [.returned ⟨0, .simple ()⟩ 1],
    [.returned none, .returned (some (⟨0, .simple ()⟩, 1)), .returned none, .all]⟩
  sending := Function.update (fun _ => none) (.call 0) (some 0)
  receiving := Function.update (Function.update (Function.update (Function.update
    (Function.update (fun _ => none) 0 (some 0)) 0 (some 1)) 0 none) 0 (some 2)) 0 (some 3)

theorem run_afterOneJob :
    (system Threads.returnsAtOnce 1 1).Run Lts.Free oneJob.reverse afterOneJob :=
  Lts.path_of_exec oneJob rfl

theorem implements_afterOneJob :
    Implements Threads.returnsAtOnce 1 oneJob.reverse afterOneJob :=
  implements_of_run run_afterOneJob

end Assembly
end Kiruna.Tpc
