import Kiruna.Tpc.BinStep
import Kiruna.Tpc.SimpleGuard

/-!
# How much the bin takes

Each level of the channel is an array queue of `1_000_000` messages, and `send` asserts that its
push has found a place. A run enqueues without a panic exactly when every send of a spawn and of a
waker finds its level with room.
-/

namespace Kiruna.Tpc

namespace Bin

open Lts (Free)

variable {Fut Job Local State Action Owner : Type*} {bounded : ℕ}
  {C : Client Fut Job Local State Action Owner} {s t : Bin Fut Job Local State bounded}
  {a : BinLabel Action Owner} {h : List (BinLabel Action Owner)}

/-- The message that the step of a waker or of a spawn sends, with its level. The idle messages of
the timer are not among them. -/
def sending (C : Client Fut Job Local State Action Owner) (s : Bin Fut Job Local State bounded) :
    BinLabel Action Owner → Option (ThreadMessage Job × ℕ)
  | .wake f | .wakeByRef f =>
      if (s.futures[f]?.any fun u => u.wakers ≠ 0) then some (.work f, 0) else none
  | .work w .wake =>
      match s.workers[w]? with
      | some (.polling f _) => some (.work f, 0)
      | _ => none
  | .work w .retry =>
      match s.workers[w]? with
      | some (.contended f) => some (.work f, 0)
      | _ => none
  | .owner o =>
      match C.owner s.state o with
      | some (_, some (.inl _)) => some (.work s.futures.length, 1)
      | some (_, some (.inr j)) => some (.simple j, 1)
      | _ => none
  | _ => none

/-- The assertion of `send` holds, if the step reaches one. -/
def SendSucceeds (C : Client Fut Job Local State Action Owner)
    (s : Bin Fut Job Local State bounded) (a : BinLabel Action Owner) : Prop :=
  ∀ m ∈ s.sending C a, (s.send m.1 m.2).isSome

/-- The level of the message is not full. -/
def HasRoom (C : Client Fut Job Local State Action Owner)
    (s : Bin Fut Job Local State bounded) (a : BinLabel Action Owner) : Prop :=
  ∀ m ∈ s.sending C a, lengthAt s.channel m.2 < bounded

/-- A step that reaches a send either adds its message to the channel, or the assertion fails. -/
theorem Effect.channel_of_sending (he : Effect C s a t) {m : ThreadMessage Job} {level : ℕ}
    (hm : s.sending C a = some (m, level)) :
    level < 2 ∧ (Sent s.channel level m t.channel ∨
      s.send m level = none ∧ t.channel = s.channel) := by
  cases he with
  | wake hf hn hc | wakeByRef hf hn hc =>
      simp only [sending, hf, Option.any_some, hn, ne_eq, not_false_eq_true, decide_true, if_true,
        Option.some.injEq, Prod.mk.injEq] at hm
      obtain ⟨rfl, rfl⟩ := hm
      exact ⟨by omega, .inl hc⟩
  | wakeFailed hf hn hfull | wakeByRefFailed hf hn hfull =>
      simp only [sending, hf, Option.any_some, hn, ne_eq, not_false_eq_true, decide_true, if_true,
        Option.some.injEq, Prod.mk.injEq] at hm
      obtain ⟨rfl, rfl⟩ := hm
      exact ⟨by omega, .inr ⟨hfull, rfl⟩⟩
  | wakeInPoll hw hf hc | retry hw hf hc =>
      simp only [sending, hw, Option.some.injEq, Prod.mk.injEq] at hm
      obtain ⟨rfl, rfl⟩ := hm
      exact ⟨by omega, .inl hc⟩
  | wakeInPollFailed hw hfull | retryFailed hw hfull =>
      simp only [sending, hw, Option.some.injEq, Prod.mk.injEq] at hm
      obtain ⟨rfl, rfl⟩ := hm
      exact ⟨by omega, .inr ⟨hfull, rfl⟩⟩
  | owner ho => simp [sending, ho] at hm
  | spawnFuture ho hc | spawnJob ho hc =>
      simp only [sending, ho, Option.some.injEq, Prod.mk.injEq] at hm
      obtain ⟨rfl, rfl⟩ := hm
      exact ⟨by omega, .inl hc⟩
  | @spawnFailed o st m' ho hfull =>
      cases m' <;>
        simp only [sending, ho, Option.some.injEq, Prod.mk.injEq] at hm <;>
        obtain ⟨rfl, rfl⟩ := hm <;>
        exact ⟨by omega, .inr ⟨hfull _, rfl⟩⟩
  | _ => cases hm

/-- The level takes the message of a step exactly if it has room. -/
theorem Effect.sendSucceeds_iff (he : Effect C s a t) (hlen : s.channel.length = 2) :
    SendSucceeds C s a ↔ HasRoom C s a := by
  apply forall₂_congr
  rintro ⟨m, level⟩ hm
  obtain ⟨hlevel, -⟩ := he.channel_of_sending hm
  rw [← hlen] at hlevel
  constructor
  · intro hsome
    obtain ⟨c, hc⟩ := Option.isSome_iff_exists.mp hsome
    exact (sent_of_send hc).lengthAt_lt
  · intro hroom
    obtain ⟨c, hc, -⟩ := exists_send m hlevel hroom
    exact Option.isSome_iff_exists.mpr ⟨c, hc⟩

/-- No send of the run panics if and only if each of them finds room. -/
theorem run_sendSucceeds_iff :
    (system C bounded).Run (SendSucceeds C) h s ↔ (system C bounded).Run (HasRoom C) h s := by
  constructor <;> intro hr
  all_goals
    refine hr.strengthen fun h s a t hs hok hst => ?_
    have hiff := (effect_of_step hst).sendSucceeds_iff (length_channel_of_run hs)
  · exact hiff.mp hok
  · exact hiff.mpr hok

end Bin

namespace SimpleGuard

open Bin (SendSucceeds)
open Lts (Free)

/-- A job that returns at once. -/
abbrev returnsAtOnce : JobCreator Unit Unit Empty where
  init := ()
  start := fun _ => ()
  act := fun _ _ a => a.elim
  result := fun _ => some .returned

variable {State Local Action : Type*} {jobs : UInt32} {K : JobCreator State Local Action}
  {bounded : ℕ} {s : Bin Empty ℕ (JobPc Local) (SimpleGuard State) bounded}

/-- The guard after the loop of its poll has handed over the job. -/
def afterNext (g : SimpleGuard State) (job : ℕ) : SimpleGuard State :=
  { g with pc := .spawning (job + 1), handedOver := g.handedOver ++ [job] }

/-- The loop of the first poll has handed over `n` jobs, and no worker has taken one. -/
structure HandedOver (n : ℕ) (s : Bin Empty ℕ (JobPc Local) (SimpleGuard State) bounded) :
    Prop where
  pc : s.state.pc = .spawning n
  length : lengthAt s.channel 1 = n
  levels : s.channel.length = 2

theorem HandedOver.next {n : ℕ} (hs : HandedOver n s) (hjob : n < jobs.toNat) :
    pollStep jobs s.state .next = some (s.state.afterNext n, some (.inr n)) := by
  simp only [pollStep, hs.pc, if_pos hjob, afterNext]

theorem HandedOver.step {n : ℕ} (hs : HandedOver n s) (hjob : n < jobs.toNat)
    (hroom : n < bounded) :
    ∃ t, (Bin.system (client jobs K) bounded).step s (.owner .next) = some t ∧
      HandedOver (n + 1) t := by
  have hlevel : 1 < s.channel.length := by rw [hs.levels]; exact Nat.lt_succ_self 1
  have hfree : lengthAt s.channel 1 < bounded := by rw [hs.length]; exact hroom
  obtain ⟨c, hsend, hc⟩ := Bin.exists_send
    (s := s.setState (s.state.afterNext n)) (.simple n) hlevel hfree
  refine ⟨(s.setState (s.state.afterNext n)).setChannel c, ?_, ?_⟩
  · change s.step (client jobs K) (.owner .next) = _
    simp only [Bin.step, hs.next hjob, Bin.spawn, hsend]
  · constructor
    · rfl
    · have hadd := hc.lengthAt 1
      rw [if_pos rfl] at hadd
      exact hadd.trans (congrArg (· + 1) hs.length)
    · exact hc.length.trans hs.levels

/-- The loop that has filled level 1 panics at its next job. -/
theorem HandedOver.fails (hs : HandedOver bounded s) (hjob : bounded < jobs.toNat) :
    ¬ SendSucceeds (client jobs K) s (.owner .next) ∧
      ∃ t, (Bin.system (client jobs K) bounded).step s (.owner .next) = some t := by
  constructor
  · intro hok
    have hsending : s.sending (client jobs K) (.owner .next) = some (.simple bounded, 1) := by
      simp only [Bin.sending, hs.next hjob]
    have hsome := hok _ hsending
    rw [Bin.send_eq_none_of_full _ hs.length] at hsome
    cases hsome
  · change ∃ t, s.step (client jobs K) (.owner .next) = some t
    simp only [Bin.step, hs.next hjob, Option.some.injEq, exists_eq']

/-- A million jobs fill level 1 before a worker takes one, and the send of the next one panics. -/
theorem exists_sendFails : ¬ ∀ h s,
    (Bin.system (client 1000001 returnsAtOnce) 1000000).Run Free h s →
      (Bin.system (client 1000001 returnsAtOnce) 1000000).Run
        (SendSucceeds (client 1000001 returnsAtOnce)) h s := by
  intro hall
  have hjobs : (1000001 : UInt32).toNat = 1000001 := rfl
  obtain ⟨s₀, hpoll⟩ : ∃ s, (Bin.system (client 1000001 returnsAtOnce) 1000000).exec Free
      (Bin.new (client 1000001 returnsAtOnce) 1000000) [.owner .poll] = some s := ⟨_, rfl⟩
  obtain ⟨s, hloop, hs⟩ : ∃ s, (Bin.system (client 1000001 returnsAtOnce) 1000000).Path Free s₀
      (List.replicate 1000000 (.owner .next)) s ∧ HandedOver 1000000 s := by
    apply Lts.exists_path_replicate (P := HandedOver)
    · cases hpoll
      exact ⟨rfl, rfl, rfl⟩
    · intro k hk t ht
      exact ⟨trivial, ht.step (by omega) hk⟩
  obtain ⟨hfails, t, hnext⟩ : ¬ SendSucceeds (client 1000001 returnsAtOnce) s (.owner .next) ∧
      ∃ t, (Bin.system (client 1000001 returnsAtOnce) 1000000).step s (.owner .next) = some t :=
    hs.fails (by omega)
  have hrun := (Lts.path_of_exec _ hpoll).trans hloop
  cases hall _ _ (hrun.snoc trivial hnext) with
  | snoc hrun' hok _ =>
      obtain rfl := hrun.unique hrun'
      exact hfails hok

end SimpleGuard
end Kiruna.Tpc
