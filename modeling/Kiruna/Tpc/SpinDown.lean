import Kiruna.Tpc.ThreadAccounting
import Mathlib.Algebra.Order.Floor.Div
import Mathlib.Data.Nat.Log
import Mathlib.GroupTheory.GroupAction.Ring

/-!
# Spinning down

Without new work a timer callback asks half the threads to exit, with one idle message for each of
them, and each worker that handles one exits unless it is the last. A round that starts when all
messages have been handled halves the threads, rounding up: the messages that are still to be
handled and the threads that are to remain add up to the counter. However the rounds overlap, the
counter only goes down, and the last worker stays.
-/

namespace Kiruna.Tpc

/-- The weight of a worker that has taken an idle message and not handled it. -/
def WorkerPc.looking {Local : Type*} : WorkerPc Local → ℕ
  | .idle => 1
  | _ => 0

/-- Halving `r + 1` times, rounding up. -/
theorem ceilDiv_two_pow_succ (n r : ℕ) : (n ⌈/⌉ 2 ^ r) ⌈/⌉ 2 = n ⌈/⌉ 2 ^ (r + 1) := by
  have hpow : 0 < 2 ^ r := Nat.two_pow_pos r
  apply eq_of_forall_ge_iff
  intro c
  rw [ceilDiv_le_iff_le_mul Nat.two_pos, ceilDiv_le_iff_le_mul hpow,
    ceilDiv_le_iff_le_mul (Nat.two_pow_pos (r + 1)), Nat.pow_succ, Nat.mul_assoc]

theorem ceilDiv_two_pow_le_one (n r : ℕ) : n ⌈/⌉ 2 ^ r ≤ 1 ↔ Nat.clog 2 n ≤ r := by
  rw [ceilDiv_le_iff_le_mul (Nat.two_pow_pos r), Nat.mul_one,
    Nat.clog_le_iff_le_pow Nat.one_lt_two]

/-- Half the threads, rounding down, are asked to exit, and half, rounding up, remain. -/
theorem half_add_ceilDiv_two (c : ℕ) : c / 2 + c ⌈/⌉ 2 = c := by
  rw [Nat.ceilDiv_eq_add_pred_div]
  omega

namespace Threads

variable {Fut Job Local State Action : Type*} {bounded : ℕ} {cpus : UInt16}
  {C : Client Fut Job Local State Action Empty} {s t : Threads Fut Job Local State bounded}
  {a : ThreadsLabel Fut Job Action}

/-- The idle messages that callbacks have still to send. -/
def unsent (s : Threads Fut Job Local State bounded) : ℕ := weight id s.timers

/-- The messages in the channel. Without new work they are idle messages. -/
def inChannel (s : Threads Fut Job Local State bounded) : ℕ :=
  lengthAt s.bin.channel 0 + lengthAt s.bin.channel 1

/-- The workers that have taken an idle message and not handled it. -/
def looking (s : Threads Fut Job Local State bounded) : ℕ :=
  weight WorkerPc.looking s.bin.workers

/-- The idle messages that have not been handled. -/
def outstanding (s : Threads Fut Job Local State bounded) : ℕ :=
  s.unsent + s.inChannel + s.looking

/-- There is no new work, and every worker that handles an idle message has been idle for long. -/
def NoNewWork (_ : Threads Fut Job Local State bounded) : ThreadsLabel Fut Job Action → Prop
  | .timer | .sendIdle _ | .idle _ true | .bin (.work _ (.recv _)) => True
  | _ => False

/-- Besides, a round starts when the messages of the rounds before it have been handled. -/
def InRounds (s : Threads Fut Job Local State bounded) (a : ThreadsLabel Fut Job Action) : Prop :=
  NoNewWork s a ∧ (a = .timer → s.outstanding = 0)

/-- The number of callbacks of a run. -/
def rounds : List (ThreadsLabel Fut Job Action) → ℕ
  | [] => 0
  | .timer :: h => rounds h + 1
  | _ :: h => rounds h

/-- All messages have been handled and every call has launched its threads. -/
structure AtRest (s : Threads Fut Job Local State bounded) : Prop where
  channel : s.bin.channel = [.empty, .empty]
  workers : ∀ pc ∈ s.bin.workers, pc = .recv ∨ pc = .gone
  timers : ∀ left ∈ s.timers, left = 0
  calls : ∀ pc ∈ s.calls, pc.promised = 0

variable (C)

/-- What a step without new work can do. -/
inductive Spins (s : Threads Fut Job Local State bounded) :
    ThreadsLabel Fut Job Action → Threads Fut Job Local State bounded → Prop
  | timer : Spins s .timer { s with timers := s.timers ++ [s.userWaiting.toNat / 2] }
  | sendIdle {i left : ℕ} {c : List (Fifo (ThreadMessage Job) bounded)}
      (hi : s.timers[i]? = some (left + 1)) (hc : Sent s.bin.channel 1 .idle c) :
      Spins s (.sendIdle i) { s.setBin (s.bin.setChannel c) with timers := s.timers.set i left }
  | sendIdleFailed {i left : ℕ} (hi : s.timers[i]? = some (left + 1))
      (hfull : s.bin.send .idle 1 = none) :
      Spins s (.sendIdle i) { s with timers := s.timers.set i 0 }
  | recv {w level : ℕ} {m : ThreadMessage Job} {c : List (Fifo (ThreadMessage Job) bounded)}
      (hw : s.bin.workers[w]? = some .recv) (hc : Received s.bin.channel level m c) :
      Spins s (.bin (.work w (.recv level)))
        (s.setBin ((s.bin.setChannel c).setWorker w (Bin.handle C m)))
  | stay {w : ℕ} (hw : s.bin.workers[w]? = some .idle) (hle : s.userWaiting ≤ 1) :
      Spins s (.idle w true) (s.setBin (s.bin.setWorker w .recv))
  | exit {w : ℕ} (hw : s.bin.workers[w]? = some .idle) (hlt : 1 < s.userWaiting) :
      Spins s (.idle w true)
        ((s.setUserWaiting (s.userWaiting - 1)).setBin (s.bin.setWorker w .gone))

variable {C}

theorem asked_eq :
    (if s.userWaiting > userWaitingMinThreads then (s.userWaiting / 2).toNat else 0) =
      s.userWaiting.toNat / 2 := by
  have hhalf : (s.userWaiting / 2).toNat = s.userWaiting.toNat / 2 := UInt16.toNat_div _ _
  split_ifs with hlt
  · exact hhalf
  · have hle := UInt16.le_iff_toNat_le.mp (UInt16.not_lt.mp hlt)
    change _ ≤ 1 at hle
    omega

theorem spins_of_step (henc : s.global.readThreadCounts.toUInt64 = s.global.threadCounts)
    (hok : NoNewWork s a) (h : (system C cpus bounded).step s a = some t) : Spins C s a t := by
  change s.step C a = some t at h
  cases a with
  | timer =>
      cases h
      have htimer : Spins C s .timer _ := .timer
      rw [← asked_eq] at htimer
      exact htimer
  | sendIdle i =>
      simp only [step] at h
      split at h
      · split at h <;> cases h
        · exact .sendIdleFailed ‹_› ‹_›
        · exact .sendIdle ‹_› (Bin.sent_of_send ‹_›)
      · cases h
  | idle w elapsed =>
      cases elapsed with
      | false => exact hok.elim
      | true =>
          obtain ⟨hw, ⟨hle, rfl⟩ | ⟨hlt, rfl⟩⟩ := leaves_of_step henc h
          · exact .stay hw hle
          · exact .exit hw hlt
  | bin a =>
      cases a with
      | work w e =>
          cases e with
          | recv level =>
              obtain ⟨b, hb, rfl⟩ := Option.map_eq_some_iff.mp h
              have he : Bin.Effect C s.bin (.work w (.recv level)) b := Bin.effect_of_step hb
              cases he with
              | recv hw hc => exact .recv hw hc
          | _ => exact hok.elim
      | _ => exact hok.elim
  | _ => exact hok.elim

/-- What holds while there is no work. -/
structure Workless (s : Threads Fut Job Local State bounded) : Prop where
  encoded : s.global.readThreadCounts.toUInt64 = s.global.threadCounts
  levels : s.bin.channel.length = 2
  tasks : mass ThreadMessage.isTask s.bin.channel = 0
  workers : ∀ pc ∈ s.bin.workers, pc = .recv ∨ pc = .idle ∨ pc = .gone
  live : s.bin.live = s.userWaiting.toNat
  pos : 1 ≤ s.userWaiting.toNat

theorem received_idle (hs : Workless s) {level : ℕ} {m : ThreadMessage Job}
    {c : List (Fifo (ThreadMessage Job) bounded)} (hc : Received s.bin.channel level m c) :
    m = .idle := by
  have hmass := hc.mass (w := ThreadMessage.isTask)
  rw [hs.tasks] at hmass
  cases m with
  | idle => rfl
  | _ =>
      simp only [ThreadMessage.isTask] at hmass
      omega

theorem toNat_userWaiting_sub_one (hlt : 1 < s.userWaiting) :
    1 < s.userWaiting.toNat ∧ (s.userWaiting - 1).toNat = s.userWaiting.toNat - 1 :=
  ⟨UInt16.lt_iff_toNat_lt.mp hlt,
    UInt16.toNat_sub_of_le s.userWaiting 1 (UInt16.le_of_lt hlt)⟩

theorem userWaiting_exit {w : ℕ} :
    ((s.setUserWaiting (s.userWaiting - 1)).setBin (s.bin.setWorker w .gone)).userWaiting =
      s.userWaiting - 1 :=
  userWaiting_setUserWaiting (s.userWaiting - 1)

theorem Spins.userWaiting (hst : Spins C s a t) : t.userWaiting.toNat ≤ s.userWaiting.toNat := by
  cases hst with
  | exit hw hlt =>
      obtain ⟨-, hsub⟩ := toNat_userWaiting_sub_one hlt
      rw [userWaiting_exit]
      omega
  | _ => exact le_rfl

theorem Workless.spins (hs : Workless s) (hst : Spins C s a t) : Workless t := by
  cases hst with
  | timer | sendIdleFailed =>
      exact ⟨hs.encoded, hs.levels, hs.tasks, hs.workers, hs.live, hs.pos⟩
  | sendIdle hi hc =>
      exact ⟨hs.encoded, hc.length.trans hs.levels, hc.mass.trans hs.tasks, hs.workers, hs.live,
        hs.pos⟩
  | @recv w level m c hw hc =>
      obtain rfl := received_idle hs hc
      have hlive : ((s.bin.setChannel c).setWorker w .idle).live = s.bin.live :=
        Bin.live_move hw rfl rfl
      refine ⟨hs.encoded, hc.length.trans hs.levels, ?_, ?_, hlive.trans hs.live, hs.pos⟩
      · have hmass := hc.mass (w := ThreadMessage.isTask)
        rw [hs.tasks] at hmass
        change mass ThreadMessage.isTask c = 0
        omega
      · exact forall_mem_set hs.workers (.inr (.inl rfl))
  | @stay w hw hle =>
      have hlive : (s.bin.setWorker w .recv).live = s.bin.live := Bin.live_move hw rfl rfl
      exact ⟨hs.encoded, hs.levels, hs.tasks, forall_mem_set hs.workers (.inl rfl),
        hlive.trans hs.live, hs.pos⟩
  | @exit w hw hlt =>
      obtain ⟨hlt', hsub⟩ := toNat_userWaiting_sub_one hlt
      have hset := weight_set (w := WorkerPc.live) .gone hw
      have hlive := hs.live
      simp only [WorkerPc.live] at hset
      refine ⟨?_, hs.levels, hs.tasks, forall_mem_set hs.workers (.inr (.inr rfl)), ?_, ?_⟩
      · exact congrArg _ (ThreadCounts.ofUInt64_toUInt64 _)
      · rw [userWaiting_exit]
        change weight WorkerPc.live (s.bin.workers.set w .gone) = _
        change weight WorkerPc.live s.bin.workers = _ at hlive
        omega
      · rw [userWaiting_exit]
        omega

/-- Where the step takes an idle message, with the counter before and after it. -/
inductive Passes (s t : Threads Fut Job Local State bounded) : ThreadsLabel Fut Job Action → Prop
  | asked (hunsent : t.unsent = s.unsent + s.userWaiting.toNat / 2)
      (hchannel : t.inChannel = s.inChannel) (hlooking : t.looking = s.looking)
      (hcount : t.userWaiting = s.userWaiting) : Passes s t .timer
  | sent {i : ℕ} (hunsent : t.unsent + 1 = s.unsent) (hchannel : t.inChannel = s.inChannel + 1)
      (hlooking : t.looking = s.looking) (hcount : t.userWaiting = s.userWaiting) :
      Passes s t (.sendIdle i)
  | full {i : ℕ} (hfull : bounded ≤ s.inChannel) (hunsent : t.unsent < s.unsent)
      (hchannel : t.inChannel = s.inChannel) (hlooking : t.looking = s.looking)
      (hcount : t.userWaiting = s.userWaiting) : Passes s t (.sendIdle i)
  | taken {w level : ℕ} (hunsent : t.unsent = s.unsent) (hchannel : t.inChannel + 1 = s.inChannel)
      (hlooking : t.looking = s.looking + 1) (hcount : t.userWaiting = s.userWaiting) :
      Passes s t (.bin (.work w (.recv level)))
  | handled {w : ℕ} (hunsent : t.unsent = s.unsent) (hchannel : t.inChannel = s.inChannel)
      (hlooking : t.looking + 1 = s.looking)
      (hcount : t.userWaiting.toNat = max 1 (s.userWaiting.toNat - 1)) :
      Passes s t (.idle w true)

theorem Spins.passes (hs : Workless s) (hst : Spins C s a t) : Passes s t a := by
  have hpos := hs.pos
  cases hst with
  | timer =>
      refine .asked ?_ rfl rfl rfl
      exact weight_append id s.timers [s.userWaiting.toNat / 2]
  | @sendIdle i left c hi hc =>
      have hset := weight_set (w := id) left hi
      have hzero := hc.lengthAt 0
      have hone := hc.lengthAt 1
      refine .sent ?_ ?_ rfl rfl
      · simp only [unsent, id] at hset ⊢
        omega
      · rw [if_neg Nat.zero_ne_one] at hzero
        rw [if_pos rfl] at hone
        simp only [inChannel, setBin, Bin.setChannel]
        omega
  | @sendIdleFailed i left hi hfull =>
      have hset := weight_set (w := id) 0 hi
      have hlen := Bin.lengthAt_of_send_eq_none hfull
      rw [hs.levels] at hlen
      refine .full ?_ ?_ rfl rfl rfl
      · simp only [inChannel]
        omega
      · simp only [unsent, id] at hset ⊢
        omega
  | @recv w level m c hw hc =>
      obtain rfl := received_idle hs hc
      have hset := weight_set (w := WorkerPc.looking) .idle hw
      have hzero := hc.lengthAt 0
      have hone := hc.lengthAt 1
      obtain ⟨q, -, hq, -, -⟩ := hc
      have hlevel := (List.getElem?_eq_some_iff.mp hq).1
      rw [hs.levels] at hlevel
      refine .taken rfl ?_ ?_ rfl
      · simp only [inChannel, setBin, Bin.setChannel, Bin.setWorker]
        split_ifs at hzero hone <;> omega
      · simp only [looking, setBin, Bin.setChannel, Bin.setWorker, Bin.handle,
          WorkerPc.looking] at hset ⊢
        omega
  | @stay w hw hle =>
      have hset := weight_set (w := WorkerPc.looking) .recv hw
      have hle' := UInt16.le_iff_toNat_le.mp hle
      refine .handled rfl rfl ?_ ?_
      · simp only [looking, setBin, Bin.setWorker, WorkerPc.looking] at hset ⊢
        omega
      · change _ ≤ 1 at hle'
        change s.userWaiting.toNat = _
        omega
  | @exit w hw hlt =>
      have hset := weight_set (w := WorkerPc.looking) .gone hw
      obtain ⟨hlt', hsub⟩ := toNat_userWaiting_sub_one hlt
      refine .handled rfl rfl ?_ ?_
      · simp only [looking, setBin, setUserWaiting, Bin.setWorker, WorkerPc.looking] at hset ⊢
        omega
      · rw [userWaiting_exit]
        omega

section Runs

variable {n : ℕ} {ok : Threads Fut Job Local State bounded → ThreadsLabel Fut Job Action → Prop}
  {tr : List (ThreadsLabel Fut Job Action)}

/-- However the rounds overlap, the counter only goes down. -/
theorem workless_of_path (hs : Workless s)
    (hp : (system C cpus bounded).Path NoNewWork s tr t) :
    Workless t ∧ t.userWaiting.toNat ≤ s.userWaiting.toNat := by
  refine hp.invariant
    (P := fun t => Workless t ∧ t.userWaiting.toNat ≤ s.userWaiting.toNat) ?_ ⟨hs, le_rfl⟩
  intro t a u ⟨ht, hle⟩ hok hst
  have hspins := spins_of_step ht.encoded hok hst
  exact ⟨ht.spins hspins, hspins.userWaiting.trans hle⟩

theorem rounds_cons_of_ne (ha : a ≠ .timer) : rounds (a :: tr) = rounds tr := by
  cases a with
  | timer => exact absurd rfl ha
  | _ => rfl

theorem rounds_append (tr tr' : List (ThreadsLabel Fut Job Action)) :
    rounds (tr' ++ tr) = rounds tr' + rounds tr := by
  induction tr' with
  | nil => exact (Nat.zero_add _).symm
  | cons a tr' ih =>
      rw [List.cons_append]
      cases a with
      | timer =>
          simp only [rounds, ih]
          omega
      | _ => exact ih

theorem ceilDiv_two_pow_pos (hn : 1 ≤ n) (r : ℕ) : 1 ≤ n ⌈/⌉ 2 ^ r := by
  by_contra hlt
  have hle : n ⌈/⌉ 2 ^ r ≤ 0 := by omega
  rw [ceilDiv_le_iff_le_mul (Nat.two_pow_pos r)] at hle
  omega

/-- What a round leaves and what it has still to take away. -/
def Halving (n r : ℕ) (s : Threads Fut Job Local State bounded) : Prop :=
  s.userWaiting.toNat = s.outstanding + n ⌈/⌉ 2 ^ r

theorem Halving.passes {r : ℕ} (hn : 1 ≤ n) (hs : Halving n r s)
    (hroom : s.userWaiting.toNat < bounded) (hm : Passes s t a) :
    (a = .timer → s.outstanding = 0 → Halving n (r + 1) t) ∧ (a ≠ .timer → Halving n r t) := by
  have hgoal := ceilDiv_two_pow_pos hn r
  unfold Halving at *
  cases hm with
  | asked hunsent hchannel hlooking hcount =>
      refine ⟨fun _ hzero => ?_, fun h => absurd rfl h⟩
      have hhalf := half_add_ceilDiv_two (n ⌈/⌉ 2 ^ r)
      rw [ceilDiv_two_pow_succ] at hhalf
      rw [hzero, Nat.zero_add] at hs
      rw [hs] at hunsent
      simp only [outstanding] at hzero ⊢
      rw [hcount, hs]
      omega
  | sent hunsent hchannel hlooking hcount | full _ hunsent hchannel hlooking hcount
  | taken hunsent hchannel hlooking hcount =>
      refine ⟨nofun, fun _ => ?_⟩
      simp only [outstanding] at hs ⊢
      rw [hcount]
      omega
  | handled hunsent hchannel hlooking hcount =>
      refine ⟨nofun, fun _ => ?_⟩
      simp only [outstanding] at hs ⊢
      omega

theorem halving_of_path {s t : Threads Fut Job Local State 1000000} (hs : Workless s)
    (hzero : s.outstanding = 0) (hp : (system C cpus 1000000).Path InRounds s tr t) :
    Workless t ∧ Halving s.userWaiting.toNat (rounds tr) t := by
  refine hp.induct (P := fun tr t => Workless t ∧ Halving s.userWaiting.toNat (rounds tr) t)
    ⟨hs, ?_⟩ ?_
  · rw [Halving, hzero, rounds, Nat.pow_zero, ceilDiv_one, Nat.zero_add]
  · intro tr t a u _ ⟨ht, hhalving⟩ ⟨hok, hsettled⟩ hst
    have hspins := spins_of_step ht.encoded hok hst
    have hlt := t.userWaiting.toNat_lt
    obtain ⟨htimer, hother⟩ := hhalving.passes hs.pos (by omega) (hspins.passes ht)
    refine ⟨ht.spins hspins, ?_⟩
    by_cases ha : a = .timer
    · obtain rfl := ha
      exact htimer rfl (hsettled rfl)
    · rw [rounds_cons_of_ne ha]
      exact hother ha

/-- A worker that has nothing to handle waits for a message. -/
theorem exists_recv (hs : Workless s) (hlooking : s.looking = 0) :
    ∃ w : ℕ, s.bin.workers[w]? = some .recv := by
  have hlive : 0 < s.bin.live := by
    rw [hs.live]
    exact hs.pos
  obtain ⟨w, pc, hw, hpc⟩ := exists_of_weight_pos hlive
  rcases hs.workers pc (List.mem_of_getElem? hw) with rfl | rfl | rfl
  · exact ⟨w, hw⟩
  · have hle := le_weight (w := WorkerPc.looking) hw
    simp only [looking, WorkerPc.looking] at hlooking hle
    omega
  · exact absurd hpc (Nat.lt_irrefl 0)

theorem exists_received {level : ℕ} (hpos : 0 < lengthAt s.bin.channel level) :
    ∃ r, s.bin.receive level = some r := by
  cases hq : s.bin.channel[level]? with
  | none => simp [lengthAt, hq] at hpos
  | some q =>
      cases hpop : q.pop with
      | none => simp [lengthAt, hq, Fifo.pop_eq_none.mp hpop] at hpos
      | some p =>
          refine ⟨(p.1, s.bin.channel.set level p.2), ?_⟩
          simp only [Bin.receive, hq, hpop]
          rfl

/-- An outstanding message can make its next step. -/
theorem exists_step (hs : Workless s) (hne : s.outstanding ≠ 0) :
    ∃ a, a ≠ .timer ∧ NoNewWork s a ∧ ((system C cpus bounded).step s a).isSome := by
  by_cases hlooking : s.looking = 0
  · by_cases hunsent : s.unsent = 0
    · obtain ⟨w, hw⟩ := exists_recv hs hlooking
      obtain ⟨level, hlevel⟩ : ∃ level, 0 < lengthAt s.bin.channel level := by
        by_contra! hnone
        have hzero := hnone 0
        have hone := hnone 1
        simp only [outstanding, inChannel] at hne
        omega
      obtain ⟨r, hr⟩ := exists_received hlevel
      refine ⟨.bin (.work w (.recv level)), by simp, trivial, ?_⟩
      simp only [system, step, Bin.step, hw, Option.bind_some, Bin.workStep, hr, Option.map_some,
        Option.isSome_some]
    · obtain ⟨i, left, hi, hleft⟩ := exists_of_weight_pos (Nat.pos_of_ne_zero hunsent)
      obtain ⟨left, rfl⟩ := Nat.exists_eq_succ_of_ne_zero hleft.ne'
      refine ⟨.sendIdle i, by simp, trivial, ?_⟩
      cases hsend : s.bin.send .idle 1 <;>
        simp only [system, step, hi, hsend, Option.isSome_some]
  · obtain ⟨w, pc, hw, hpc⟩ := exists_of_weight_pos (Nat.pos_of_ne_zero hlooking)
    cases pc with
    | idle =>
        refine ⟨.idle w true, by simp, trivial, ?_⟩
        simp only [system, step, Bin.step, hw, Option.bind_some, Bin.workStep, Option.map_some,
          Option.isSome_some]
    | _ => exact absurd hpc (Nat.lt_irrefl 0)

/-- The steps that the outstanding messages have still to make. -/
def toGo (s : Threads Fut Job Local State bounded) : ℕ := 3 * s.unsent + 2 * s.inChannel + s.looking

theorem Passes.toGo_lt (hm : Passes s t a) (ha : a ≠ .timer) : t.toGo < s.toGo := by
  unfold toGo
  cases hm with
  | asked => exact absurd rfl ha
  | sent | full | taken | handled => omega

/-- A round comes to its end. -/
theorem exists_settled (hs : Workless s) :
    ∃ tr t, (system C cpus bounded).Path InRounds s tr t ∧ rounds tr = 0 ∧ t.outstanding = 0 := by
  induction hk : s.toGo using Nat.strong_induction_on generalizing s with
  | _ k ih =>
      subst hk
      by_cases hzero : s.outstanding = 0
      · exact ⟨[], s, .refl, rfl, hzero⟩
      · obtain ⟨a, ha, hok, hsome⟩ :
            ∃ a, a ≠ .timer ∧ NoNewWork s a ∧ ((system C cpus bounded).step s a).isSome :=
          exists_step hs hzero
        obtain ⟨t, hst⟩ := Option.isSome_iff_exists.mp hsome
        have hspins := spins_of_step hs.encoded hok hst
        obtain ⟨tr, u, hp, hr, hu⟩ :=
          ih t.toGo ((hspins.passes hs).toGo_lt ha) (hs.spins hspins) rfl
        refine ⟨tr ++ [a], u, ?_, ?_, hu⟩
        · exact (Lts.Path.snoc .refl ⟨hok, fun h => absurd h ha⟩ hst).trans hp
        · rw [rounds_append, hr, rounds_cons_of_ne ha]
          rfl

end Runs

theorem workless_of_atRest (hcpus : 1 ≤ cpus) (hr : (system C cpus bounded).Reachable s)
    (hrest : AtRest s) (hpos : 1 ≤ s.userWaiting) : Workless s := by
  obtain ⟨h, hr⟩ := hr
  have hs := balanced_of_run (UInt16.le_iff_toNat_le.mp hcpus) hr
  refine ⟨hs.encoded, ?_, ?_, ?_, ?_, UInt16.le_iff_toNat_le.mp hpos⟩
  · rw [hrest.channel]
    rfl
  · rw [hrest.channel]
    rfl
  · intro pc hpc
    rcases hrest.workers pc hpc with rfl | rfl
    · exact .inl rfl
    · exact .inr (.inr rfl)
  · have hpromised : s.promised = 0 := weight_eq_zero.mpr hrest.calls
    rw [hs.balance, hpromised]
    rfl

theorem outstanding_of_atRest (hrest : AtRest s) : s.outstanding = 0 := by
  have hunsent : s.unsent = 0 := weight_eq_zero.mpr hrest.timers
  have hchannel : s.inChannel = 0 := by
    rw [inChannel, hrest.channel]
    rfl
  have hlooking : s.looking = 0 := by
    refine weight_eq_zero.mpr fun pc hpc => ?_
    rcases hrest.workers pc hpc with rfl | rfl <;> rfl
  rw [outstanding, hunsent, hchannel, hlooking]

/-- How the bin with its `1_000_000` places spins down from a state without work. -/
structure SpinsDown (C : Client Fut Job Local State Action Empty) (cpus : UInt16)
    (s : Threads Fut Job Local State 1000000) : Prop where
  halved : ∀ tr t, (system C cpus 1000000).Path InRounds s tr t → t.outstanding = 0 →
    t.userWaiting.toNat = s.userWaiting.toNat ⌈/⌉ 2 ^ rounds tr ∧
      t.bin.live = t.userWaiting.toNat
  reachesOne : ∀ tr t, (system C cpus 1000000).Path InRounds s tr t → t.outstanding = 0 →
    (t.userWaiting = 1 ↔ Nat.clog 2 s.userWaiting.toNat ≤ rounds tr)
  completes : ∀ tr t, (system C cpus 1000000).Path InRounds s tr t →
    ∃ tr' u, (system C cpus 1000000).Path InRounds t tr' u ∧ rounds tr' = 0 ∧ u.outstanding = 0
  overlapping : ∀ tr t tr' u, (system C cpus 1000000).Path NoNewWork s tr t →
    (system C cpus 1000000).Path NoNewWork t tr' u →
      1 ≤ u.userWaiting ∧ u.userWaiting ≤ t.userWaiting

theorem spinsDown_of_atRest {s : Threads Fut Job Local State 1000000} (hcpus : 1 ≤ cpus)
    (hr : (system C cpus 1000000).Reachable s) (hrest : AtRest s) (hpos : 1 ≤ s.userWaiting) :
    SpinsDown C cpus s := by
  have hs := workless_of_atRest hcpus hr hrest hpos
  have hzero := outstanding_of_atRest hrest
  have hsettled : ∀ tr t, (system C cpus 1000000).Path InRounds s tr t → t.outstanding = 0 →
      t.userWaiting.toNat = s.userWaiting.toNat ⌈/⌉ 2 ^ rounds tr ∧
        t.bin.live = t.userWaiting.toNat := by
    intro tr t hp hdone
    obtain ⟨ht, hhalving⟩ := halving_of_path hs hzero hp
    rw [Halving, hdone, Nat.zero_add] at hhalving
    exact ⟨hhalving, ht.live⟩
  refine ⟨hsettled, ?_, ?_, ?_⟩
  · intro tr t hp hdone
    obtain ⟨ht, -⟩ := halving_of_path hs hzero hp
    rw [← ceilDiv_two_pow_le_one, ← (hsettled tr t hp hdone).1, ← UInt16.toNat_inj]
    have hone := ht.pos
    change _ = 1 ↔ _
    omega
  · intro tr t hp
    exact exists_settled (halving_of_path hs hzero hp).1
  · intro tr t tr' u hp hp'
    obtain ⟨ht, -⟩ := workless_of_path hs hp
    obtain ⟨hu, hle⟩ := workless_of_path ht hp'
    exact ⟨UInt16.le_iff_toNat_le.mpr hu.pos, UInt16.le_iff_toNat_le.mpr hle⟩

/-- Four threads for four jobs, which return. -/
def fourJobs : List (ThreadsLabel Empty Unit Empty) :=
  .enter (.spawnMixedSimple [(), (), (), ()]) :: List.replicate 10 (.call 0) ++
    [.bin (.work 0 (.recv 1)), .bin (.work 1 (.recv 1)), .bin (.work 2 (.recv 1)),
      .bin (.work 3 (.recv 1)), .bin (.work 0 .returned), .bin (.work 1 .returned),
      .bin (.work 2 .returned), .bin (.work 3 .returned)]

theorem spinsDown_fourJobs :
    SpinsDown returnsAtOnce 4 (⟨⟨4, 4⟩, ⟨[.empty, .empty], [], [.recv, .recv, .recv, .recv], ()⟩,
      [.send []], []⟩ : Threads Empty Unit Unit Unit 1000000) := by
  refine spinsDown_of_atRest (by decide) ⟨_, Lts.path_of_exec fourJobs rfl⟩ ?_ (by decide)
  exact ⟨rfl, by decide, by decide, by simp [CallPc.promised]⟩

end Threads
end Kiruna.Tpc
