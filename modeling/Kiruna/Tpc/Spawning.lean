import Kiruna.Tpc.Enqueueing
import Kiruna.Tpc.ReferenceCounting
import Kiruna.Tpc.ThreadAccounting
import Kiruna.Transition.Simulation

/-!
# The bin under its threads

Where the calls and the timer are kept out of sight, the threads are a run of the bin in which an
owner spawns whatever it likes. So what holds in every run of the bin holds under the threads. A
step that receives nothing changes the channel by the one message that it sends.
-/

namespace Kiruna.Tpc

/-- An owner that may spawn any future and any job at any time. -/
def Client.spawning {Fut Job Local State Action : Type*}
    (C : Client Fut Job Local State Action Empty) :
    Client Fut Job Local State Action (Fut ⊕ Job) where
  init := C.init
  poll := C.poll
  call := C.call
  act := C.act
  result := C.result
  owner := fun st m => some (st, some m)
  sendFailed := id

/-- The label of a bin without an owner. -/
def BinLabel.spawning {Fut Job Action : Type*} : BinLabel Action Empty → BinLabel Action (Fut ⊕ Job)
  | .startWorker => .startWorker
  | .work w e => .work w e
  | .clone f => .clone f
  | .wake f => .wake f
  | .wakeByRef f => .wakeByRef f
  | .drop f => .drop f
  | .sendIdle => .sendIdle
  | .owner o => o.elim

namespace Bin

variable {Fut Job Local State Action Owner : Type*} {bounded : ℕ}
  {s t : Bin Fut Job Local State bounded}

theorem step_spawning (C : Client Fut Job Local State Action Empty) (a : BinLabel Action Empty) :
    s.step C.spawning (@BinLabel.spawning Fut Job _ a) = s.step C a := by
  cases a with
  | work w e => cases e <;> rfl
  | owner o => exact o.elim
  | _ => rfl

theorem send_eq_some {m : ThreadMessage Job} {level : ℕ}
    {c : List (Fifo (ThreadMessage Job) bounded)} :
    s.send m level = some c ↔ Sent s.channel level m c := by
  refine ⟨sent_of_send, ?_⟩
  intro hc
  have hlt := hc.lengthAt_lt
  obtain ⟨q, q', hq, hitems, rfl⟩ := hc
  obtain ⟨c, hsend, r, r', hr, hitems', rfl⟩ :=
    exists_send m (List.getElem?_eq_some_iff.mp hq).1 hlt
  obtain rfl : q = r := Option.some.inj (hq.symm.trans hr)
  obtain rfl : r' = q' := Fifo.ext (hitems'.trans hitems.symm)
  exact hsend

theorem receive_eq_some {m : ThreadMessage Job} {level : ℕ}
    {c : List (Fifo (ThreadMessage Job) bounded)} :
    s.receive level = some (m, c) ↔ Received s.channel level m c := by
  refine ⟨received_of_receive, ?_⟩
  rintro ⟨q, q', hq, hitems, rfl⟩
  simp only [receive, hq, Fifo.pop_eq_some.mpr hitems, Option.map_some]

variable {C : Client Fut Job Local State Action Owner} {a : BinLabel Action Owner}

/-- A worker keeps its place in the steps of others. -/
theorem Effect.worker (he : Effect C s a t) {w : ℕ} {pc : WorkerPc Local}
    (ha : ∀ e, a ≠ .work w e) (hw : s.workers[w]? = some pc) : t.workers[w]? = some pc := by
  cases a with
  | work w' e =>
      have hne : w' ≠ w := by
        rintro rfl
        exact ha e rfl
      cases he with
      | wakeInPoll | cloneInPoll => exact hw
      | _ => exact (List.getElem?_set_ne hne).trans hw
  | startWorker =>
      cases he
      exact (List.getElem?_append_left (List.getElem?_eq_some_iff.mp hw).1).trans hw
  | _ =>
      cases he
      all_goals exact hw

theorem Effect.channel_of_not_sending (he : Effect C s a t) (hm : s.sending C a = none)
    (hrecv : ∀ w level, a ≠ .work w (.recv level)) (hidle : a ≠ .sendIdle) :
    t.channel = s.channel := by
  cases he with
  | @recv w level => exact absurd rfl (hrecv w level)
  | sendIdle | sendIdleFailed => exact absurd rfl hidle
  | wake hf hn | wakeByRef hf hn => simp [sending, hf, hn] at hm
  | wakeInPoll hw | retry hw => simp [sending, hw] at hm
  | spawnFuture ho | spawnJob ho => simp [sending, ho] at hm
  | _ => rfl

/-- The channel after a step that receives nothing. -/
theorem Effect.channel_eq (he : Effect C s a t) (hrecv : ∀ w level, a ≠ .work w (.recv level))
    (hidle : a ≠ .sendIdle) :
    t.channel = ((s.sending C a).bind fun m => s.send m.1 m.2).getD s.channel := by
  cases hm : s.sending C a with
  | none => exact he.channel_of_not_sending hm hrecv hidle
  | some m =>
      obtain ⟨-, hsent | ⟨hfull, hsame⟩⟩ := he.channel_of_sending hm
      · rw [Option.bind_some, send_eq_some.mpr hsent, Option.getD_some]
      · rw [Option.bind_some, hfull, hsame, Option.getD_none]

end Bin

/-- The step takes a message out of the channel. -/
def ThreadsLabel.receives {Fut Job Action : Type*} : ThreadsLabel Fut Job Action → Bool
  | .bin (.work _ (.recv _)) => true
  | _ => false

/-- The worker whose step it is. -/
def ThreadsLabel.worker {Fut Job Action : Type*} : ThreadsLabel Fut Job Action → Option ℕ
  | .idle w _ | .bin (.work w _) => some w
  | _ => none

namespace Threads

open Lts (Free)

variable {Fut Job Local State Action : Type*} {bounded : ℕ} {cpus : UInt16}
  {C : Client Fut Job Local State Action Empty} {s t : Threads Fut Job Local State bounded}
  {a : ThreadsLabel Fut Job Action} {h : List (ThreadsLabel Fut Job Action)}
  {ok : Threads Fut Job Local State bounded → ThreadsLabel Fut Job Action → Prop}

/-- The message that a step sends, with its level. -/
def sending (C : Client Fut Job Local State Action Empty)
    (s : Threads Fut Job Local State bounded) :
    ThreadsLabel Fut Job Action → Option (ThreadMessage Job × ℕ)
  | .call c =>
      match s.calls[c]? with
      | some (.send (m :: _)) => some (s.message m, 1)
      | _ => none
  | .sendIdle i =>
      match s.timers[i]? with
      | some (_ + 1) => some (.idle, 1)
      | _ => none
  | .bin a => s.bin.sending C a
  | _ => none

theorem channel_spawn {m : Fut ⊕ Job} {c : List (Fifo (ThreadMessage Job) bounded)}
    (hc : s.bin.send (s.message m) 1 = some c) : (s.bin.spawn C m).channel = c := by
  cases m with
  | inl u =>
      simp only [message] at hc
      simp only [Bin.spawn, hc]
      rfl
  | inr j =>
      simp only [message] at hc
      simp only [Bin.spawn, hc]
      rfl

theorem channel_of_callStep {c : ℕ} {pc : CallPc Fut Job} (hc : s.calls[c]? = some pc)
    (h : s.callStep C c pc = some t) :
    t.bin.channel = ((s.sending C (.call c)).bind fun m => s.bin.send m.1 m.2).getD
      s.bin.channel := by
  cases pc with
  | enforce call =>
      simp only [callStep] at h
      simp only [sending, hc, Option.bind_none, Option.getD_none]
      split at h
      · split_ifs at h <;> cases h <;> rfl
      · cases h
        rfl
  | launch call left =>
      simp only [sending, hc, Option.bind_none, Option.getD_none]
      cases left with
      | zero =>
          cases h
          rfl
      | succ left =>
          cases h
          rfl
  | send left =>
      cases left with
      | nil => cases h
      | cons m left =>
          simp only [sending, hc, Option.bind_some]
          simp only [callStep] at h
          split at h <;> cases h
          · rename_i hfull
            rw [hfull]
            rfl
          · rename_i c' hsend
            rw [hsend, Option.getD_some]
            exact channel_spawn hsend
  | overflowed => cases h
  | panicked => cases h

/-- The channel after a step that receives nothing. -/
theorem channel_of_step (ha : a.receives = false) (hst : s.step C a = some t) :
    t.bin.channel = ((s.sending C a).bind fun m => s.bin.send m.1 m.2).getD s.bin.channel := by
  cases a with
  | enter call =>
      cases hst
      rfl
  | call c =>
      obtain ⟨pc, hc, hst⟩ := Option.bind_eq_some_iff.mp hst
      exact channel_of_callStep hc hst
  | timer =>
      cases hst
      rfl
  | sendIdle i =>
      simp only [step] at hst
      split at hst
      · rename_i left hi
        simp only [sending, hi, Option.bind_some]
        split at hst <;> cases hst
        · rename_i hfull
          rw [hfull]
          rfl
        · rename_i c hsend
          rw [hsend]
          rfl
      · cases hst
  | idle w elapsed =>
      cases elapsed with
      | false | true =>
          obtain ⟨b, hb, rfl⟩ := Option.map_eq_some_iff.mp hst
          obtain ⟨-, rfl⟩ := idle_of_step hb
          rfl
  | bin a =>
      have hbin : a.own ∧ (s.bin.step C a).map s.setBin = some t := by
        cases a with
        | work w e => cases e <;> first | exact ⟨trivial, hst⟩ | cases hst
        | _ => first | exact ⟨trivial, hst⟩ | cases hst
      obtain ⟨hown, hst⟩ := hbin
      obtain ⟨b, hb, rfl⟩ := Option.map_eq_some_iff.mp hst
      apply (Bin.effect_of_step hb).channel_eq
      · rintro w level rfl
        cases ha
      · rintro rfl
        exact hown

theorem spawn_eq {m : Fut ⊕ Job} {c : List (Fifo (ThreadMessage Job) bounded)}
    (hc : s.bin.send (s.message m) 1 = some c) :
    s.bin.step C.spawning (.owner m) = some (s.bin.spawn C m) := by
  cases m with
  | inl u =>
      simp only [message] at hc
      simp only [Bin.step, Client.spawning, Bin.spawn, Bin.setState, hc]
  | inr j =>
      simp only [message] at hc
      simp only [Bin.step, Client.spawning, Bin.spawn, Bin.setState, hc]

/-- What a step of the threads does to the bin: nothing, or one step of the bin, which is a step of
a worker only if the step of the threads is. -/
theorem bin_of_step (hst : s.step C a = some t) :
    t.bin = s.bin ∨ ∃ e, (Bin.system C.spawning bounded).step s.bin e = some t.bin ∧
      ∀ w e', e = .work w e' → a.worker = some w := by
  cases a with
  | enter call =>
      cases hst
      exact .inl rfl
  | call c =>
      obtain ⟨pc, hc, hst⟩ := Option.bind_eq_some_iff.mp hst
      cases pc with
      | enforce call =>
          simp only [callStep] at hst
          split at hst
          · split_ifs at hst <;> cases hst <;> exact .inl rfl
          · cases hst
            exact .inl rfl
      | launch call left =>
          cases left with
          | zero =>
              cases hst
              exact .inl rfl
          | succ left =>
              cases hst
              exact .inr ⟨.startWorker, rfl, by simp⟩
      | send left =>
          cases left with
          | nil => cases hst
          | cons m left =>
              simp only [callStep] at hst
              split at hst <;> cases hst
              · exact .inl rfl
              · exact .inr ⟨.owner m, spawn_eq ‹_›, by simp⟩
      | overflowed => cases hst
      | panicked => cases hst
  | timer =>
      cases hst
      exact .inl rfl
  | sendIdle i =>
      simp only [step] at hst
      split at hst
      · split at hst <;> cases hst
        · exact .inl rfl
        · rename_i c hc
          refine .inr ⟨.sendIdle, ?_, by simp⟩
          simp only [Bin.system, Bin.step, hc]
          rfl
      · cases hst
  | idle w elapsed =>
      cases elapsed with
      | false | true =>
          obtain ⟨b, hb, rfl⟩ := Option.map_eq_some_iff.mp hst
          rw [← Bin.step_spawning] at hb
          refine .inr ⟨.work w (.idle _), hb, ?_⟩
          intro w' e' he
          cases he
          rfl
  | bin a =>
      have hbin : (s.bin.step C a).map s.setBin = some t := by
        cases a with
        | work w e => cases e <;> first | exact hst | cases hst
        | _ => first | exact hst | cases hst
      obtain ⟨b, hb, rfl⟩ := Option.map_eq_some_iff.mp hbin
      rw [← Bin.step_spawning] at hb
      refine .inr ⟨_, hb, ?_⟩
      intro w' e' he
      cases a with
      | work w e =>
          cases he
          rfl
      | owner o => exact o.elim
      | _ => cases he

/-- The threads are a run of the bin. -/
theorem bin_of_run (hr : (system C cpus bounded).Run ok h s) :
    ∃ h', (Bin.system C.spawning bounded).Run Free h' s.bin := by
  refine hr.exists_map bin fun _ _ _ _ _ _ hst => ?_
  rcases bin_of_step hst with heq | ⟨e, he, -⟩
  · rw [heq]
    exact ⟨[], .refl⟩
  · exact ⟨[e], .single trivial he⟩

/-- A worker keeps its place in the steps of others. -/
theorem worker_of_step {w : ℕ} {pc : WorkerPc Local} (ha : a.worker ≠ some w)
    (hst : s.step C a = some t) (hw : s.bin.workers[w]? = some pc) :
    t.bin.workers[w]? = some pc := by
  rcases bin_of_step hst with heq | ⟨e, he, hworker⟩
  · rwa [heq]
  · exact (Bin.effect_of_step he).worker (fun e' he' => ha (hworker w e' he')) hw

end Threads
end Kiruna.Tpc
