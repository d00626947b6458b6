import Kiruna.BlockParty.Pool

/-!
# Shutdown and relaunch of the worker

The flag is set exactly while one worker is launched or about to be. A task in the channel is safe
as long as that worker is still going to receive, or some sender has its swap ahead of it and will
obtain `false`. The window is between the worker's last timeout and its store: a sender that swaps
there obtains `true` from a worker that no longer looks at the channel.
-/

namespace Kiruna.BlockParty

variable {Task Output : Type*}

/-- The send is complete, the swap has still to come. -/
def SenderPc.beforeSwap : SenderPc Task → ℕ
  | .swapping => 1
  | _ => 0

def SenderPc.launching : SenderPc Task → ℕ
  | .spawning => 1
  | _ => 0

namespace Pool

open Lts (Free)

variable {oneWaitOnly : Bool} {s t : Pool Task Output} {a : PoolLabel Task Output}
  {h : List (PoolLabel Task Output)} {ok : Pool Task Output → PoolLabel Task Output → Prop}

/-- A worker, launched or being launched, is still going to receive from the channel. -/
def Attended (s : Pool Task Output) : Prop :=
  (∃ k ∈ s.workers, k.receiving = 1) ∨ .spawning ∈ s.senders

/-- A sender has sent and not swapped yet, and in every continuation in which all these senders
swap one of them obtains `false`. -/
def WillRelaunch (oneWaitOnly : Bool) (ok : Pool Task Output → PoolLabel Task Output → Prop)
    (s : Pool Task Output) : Prop :=
  .swapping ∈ s.senders ∧
    ∀ (tr : List (PoolLabel Task Output)) (t : Pool Task Output),
      (system Task Output oneWaitOnly).Path ok s tr t →
      (∀ i : ℕ, s.senders[i]? = some .swapping → t.senders[i]? ≠ some .swapping) →
      ∃ i : ℕ, s.senders[i]? = some .swapping ∧ .swap i false ∈ tr

/-- An info is in the channel, or a sender is blocked in `send`. -/
def Waiting (s : Pool Task Output) : Prop :=
  s.channel.items ≠ [] ∨ ∃ info, .sending info ∈ s.senders ∧ s.channel.push info = none

/-- No submitted task is stranded. -/
def NotStranded (oneWaitOnly : Bool) (ok : Pool Task Output → PoolLabel Task Output → Prop)
    (s : Pool Task Output) : Prop :=
  s.Waiting → s.Attended ∨ s.WillRelaunch oneWaitOnly ok

/-- A swap is not taken between the worker's loop exit and its store, unless the channel is empty
or another sender has its swap ahead of it too. -/
def SwapInTime (s : Pool Task Output) : PoolLabel Task Output → Prop
  | .swap _ _ => (∀ k ∈ s.workers, k.pc ≠ .leaving) ∨ s.channel.items = [] ∨
      2 ≤ weight SenderPc.beforeSwap s.senders
  | _ => True

instance [DecidableEq Task] :
    ∀ (s : Pool Task Output) (a : PoolLabel Task Output), Decidable (s.SwapInTime a)
  | s, .swap _ _ => inferInstanceAs (Decidable ((∀ k ∈ s.workers, k.pc ≠ .leaving) ∨
      s.channel.items = [] ∨ 2 ≤ weight SenderPc.beforeSwap s.senders))
  | _, .submit _ | _, .send _ | _, .spawn _ | _, .wake _ | _, .work _ _ => isTrue trivial

/-- The launched worker and the one about to be launched, counted by the flag. -/
def Single (s : Pool Task Output) : Prop :=
  weight Worker.running s.workers + weight SenderPc.launching s.senders = s.threadLaunched.toNat

theorem single_effect (hs : Single s) (he : Effect s a t) : Single t := by
  unfold Single at *
  cases he with
  | submit info => simpa [SenderPc.launching] using hs
  | send hi hc =>
      have hw := weight_set (w := SenderPc.launching) .swapping hi
      simp only [SenderPc.launching] at hw
      dsimp only
      omega
  | swap hi =>
      have hw := weight_set (w := SenderPc.launching)
        (if s.threadLaunched then .waking else .spawning) hi
      cases hf : s.threadLaunched with
      | false =>
          simp only [hf, Bool.false_eq_true, if_false, SenderPc.launching, Bool.toNat_false,
            Bool.toNat_true] at hs hw ⊢
          omega
      | true =>
          simp only [hf, if_true, SenderPc.launching] at hs hw ⊢
          omega
  | spawn hi =>
      have hw := weight_set (w := SenderPc.launching) .returned hi
      simp only [SenderPc.launching] at hw
      simp only [weight_append, weight_cons, weight_nil, Worker.running]
      omega
  | wake hi =>
      have hw := weight_set (w := SenderPc.launching) .returned hi
      simp only [SenderPc.launching] at hw
      dsimp only
      omega
  | @work w e k k' q n m hk hr hr' =>
      have hw := weight_set (w := Worker.running) k' hk
      rw [Worker.running_of_receiving hr, Worker.running_of_receiving hr'] at hw
      dsimp only
      omega
  | @leave w k hk hpc hc =>
      have hw := weight_set (w := Worker.running) { k with pc := .leaving } hk
      simp only [hpc, Worker.running] at hw
      dsimp only
      omega
  | @store w k hk hpc =>
      have hw := weight_set (w := Worker.running) { k with pc := .gone } hk
      have hle := s.threadLaunched.toNat_le
      simp only [hpc, Worker.running] at hw
      rw [Bool.toNat_false]
      dsimp only
      omega

theorem single_of_path (hs : Single s) (hp : (system Task Output oneWaitOnly).Path ok s h t) :
    Single t :=
  hp.invariant (fun _ _ _ hs _ hst => single_effect hs (effect_of_step hst)) hs

theorem single_new : Single (new : Pool Task Output) := rfl

theorem Single.threadLaunched (hs : Single s) (hf : s.threadLaunched = true)
    (hl : ∀ k ∈ s.workers, k.pc ≠ .leaving) :
    0 < weight Worker.receiving s.workers + weight SenderPc.launching s.senders := by
  have hle : weight Worker.running s.workers ≤ weight Worker.receiving s.workers := by
    refine weight_mono fun k hk => ?_
    have hne := hl k hk
    unfold Worker.running Worker.receiving
    split <;> split <;> simp_all
  rw [Single, hf, Bool.toNat_true] at hs
  omega

/-- An info in the channel has a worker that will receive it or a sender that has still to swap. -/
def Covered (s : Pool Task Output) : Prop :=
  s.channel.items ≠ [] → 0 < weight Worker.receiving s.workers +
    weight SenderPc.launching s.senders + weight SenderPc.beforeSwap s.senders

theorem covered_effect (hs : Single s) (hc : Covered s) (hok : s.SwapInTime a)
    (he : Effect s a t) : Covered t := by
  unfold Covered at *
  intro hne
  cases he with
  | submit info => simpa [SenderPc.launching, SenderPc.beforeSwap] using hc hne
  | @send i info q hi hemp =>
      have hw := le_weight (w := SenderPc.beforeSwap) (l := s.senders.set i .swapping)
        (List.getElem?_set_self (List.getElem?_eq_some_iff.mp hi).1)
      simp only [SenderPc.beforeSwap] at hw
      dsimp only
      omega
  | @swap i hi =>
      have hlen := (List.getElem?_eq_some_iff.mp hi).1
      have hw := weight_set (w := SenderPc.beforeSwap)
        (if s.threadLaunched then .waking else .spawning) hi
      have hl := weight_set (w := SenderPc.launching)
        (if s.threadLaunched then .waking else .spawning) hi
      cases hf : s.threadLaunched with
      | false =>
          simp only [hf, Bool.false_eq_true, if_false, SenderPc.launching] at hl ⊢
          omega
      | true =>
          simp only [hf, if_true, SenderPc.launching, SenderPc.beforeSwap] at hl hw ⊢
          rcases hok with hleave | hemp | htwo
          · have hpos := hs.threadLaunched hf hleave
            omega
          · exact absurd hemp hne
          · omega
  | spawn hi =>
      simp only [weight_append, weight_cons, weight_nil, Worker.receiving]
      omega
  | wake hi =>
      have hold := hc hne
      have hw := weight_set (w := SenderPc.beforeSwap) .returned hi
      have hl := weight_set (w := SenderPc.launching) .returned hi
      simp only [SenderPc.launching, SenderPc.beforeSwap] at hl hw
      dsimp only
      omega
  | @work w e k k' q n m hk hr hr' =>
      have hw := le_weight (w := Worker.receiving) (l := s.workers.set w k')
        (List.getElem?_set_self (List.getElem?_eq_some_iff.mp hk).1)
      dsimp only
      omega
  | leave hk hpc hemp => exact absurd hemp hne
  | @store w k hk hpc =>
      have hold := hc hne
      have hw := weight_set (w := Worker.receiving) { k with pc := .gone } hk
      simp only [hpc, Worker.receiving] at hw
      dsimp only
      omega

theorem covered_of_run (hr : (system Task Output oneWaitOnly).Run SwapInTime h s) : Covered s := by
  have hboth : Single s ∧ Covered s := by
    refine hr.invariant (P := fun s => Single s ∧ Covered s) ?_ ⟨single_new, fun hne => ?_⟩
    · intro t a u ht hok hst
      have he := effect_of_step hst
      exact ⟨single_effect ht.1 he, covered_effect ht.1 ht.2 hok he⟩
    · exact absurd rfl hne
  exact hboth.2

/-- Between the states `s` and `t` nobody has taken the info and no swap has obtained `false`. -/
structure Pending (s t : Pool Task Output) : Prop where
  single : Single t
  waiting : t.channel.items ≠ []
  receiving : weight Worker.receiving t.workers = 0
  launching : weight SenderPc.launching t.senders = 0
  beforeSwap : 0 < weight SenderPc.beforeSwap t.senders
  origin : ∀ i : ℕ, t.senders[i]? = some .swapping → s.senders[i]? = some .swapping

theorem Pending.refl (hs : Single s) (hc : Covered s) (hw : s.channel.items ≠ [])
    (hr : weight Worker.receiving s.workers = 0)
    (hl : weight SenderPc.launching s.senders = 0) : Pending s s where
  single := hs
  waiting := hw
  receiving := hr
  launching := hl
  beforeSwap := by
    have hpos := hc hw
    omega
  origin := fun _ hi => hi

theorem Pending.origin_set {r : Pool Task Output} (hp : Pending r s) {i : ℕ} {pc : SenderPc Task}
    (hpc : pc ≠ .swapping) :
    ∀ j : ℕ, (s.senders.set i pc)[j]? = some .swapping → r.senders[j]? = some .swapping := by
  intro j hj
  rcases getElem?_set_cases hj with ⟨-, he⟩ | ⟨-, hj⟩
  · exact absurd he.symm hpc
  · exact hp.origin j hj

/-- While the info is pending the next swap obtains `false`, or another one is still to come. -/
theorem Pending.step {r : Pool Task Output} (hp : Pending r s) (hok : s.SwapInTime a)
    (he : Effect s a t) :
    (∃ i : ℕ, r.senders[i]? = some .swapping ∧ a = .swap i false) ∨ Pending r t := by
  have hsingle := single_effect hp.single he
  cases he with
  | submit info =>
      refine .inr ⟨hsingle, hp.waiting, hp.receiving, ?_, ?_, ?_⟩
      · simpa [SenderPc.launching] using hp.launching
      · simpa [SenderPc.beforeSwap] using hp.beforeSwap
      · intro i hi
        rcases getElem?_append_cases hi with hi | ⟨-, he⟩
        · exact hp.origin i hi
        · cases he
  | send hi hemp => exact absurd hemp hp.waiting
  | @swap i hi =>
      cases hf : s.threadLaunched with
      | false => exact .inl ⟨i, hp.origin i hi, rfl⟩
      | true =>
          have hw := weight_set (w := SenderPc.beforeSwap) .waking hi
          have hl := weight_set (w := SenderPc.launching) .waking hi
          simp only [SenderPc.launching, SenderPc.beforeSwap] at hl hw
          have hrec := hp.receiving
          have hlaunch := hp.launching
          have htwo : 2 ≤ weight SenderPc.beforeSwap s.senders := by
            rcases hok with hleave | hemp | htwo
            · have hpos := hp.single.threadLaunched hf hleave
              omega
            · exact absurd hemp hp.waiting
            · exact htwo
          simp only [hf, if_true] at hsingle ⊢
          refine .inr ⟨hsingle, hp.waiting, hrec, ?_, ?_, hp.origin_set (by simp)⟩ <;>
            dsimp only <;> omega
  | spawn hi =>
      have hle := le_weight (w := SenderPc.launching) hi
      have hlaunch := hp.launching
      simp only [SenderPc.launching] at hle
      omega
  | wake hi =>
      have hw := weight_set (w := SenderPc.beforeSwap) .returned hi
      have hl := weight_set (w := SenderPc.launching) .returned hi
      have hlaunch := hp.launching
      have hbefore := hp.beforeSwap
      simp only [SenderPc.launching, SenderPc.beforeSwap] at hl hw
      refine .inr ⟨hsingle, hp.waiting, hp.receiving, ?_, ?_, hp.origin_set (by simp)⟩ <;>
        dsimp only <;> omega
  | work hk hr hr' =>
      have hle := le_weight (w := Worker.receiving) hk
      have hrec := hp.receiving
      omega
  | leave hk hpc hemp => exact absurd hemp hp.waiting
  | @store w k hk hpc =>
      have hw := weight_set (w := Worker.receiving) { k with pc := .gone } hk
      have hrec := hp.receiving
      simp only [hpc, Worker.receiving] at hw
      refine .inr ⟨hsingle, hp.waiting, ?_, hp.launching, hp.beforeSwap, hp.origin⟩
      dsimp only
      omega

theorem Pending.path (hp : Pending s s)
    {tr : List (PoolLabel Task Output)}
    (hpath : (system Task Output oneWaitOnly).Path SwapInTime s tr t) :
    (∃ i : ℕ, s.senders[i]? = some .swapping ∧ .swap i false ∈ tr) ∨ Pending s t := by
  refine hpath.induct (P := fun tr t =>
    (∃ i : ℕ, s.senders[i]? = some .swapping ∧ .swap i false ∈ tr) ∨ Pending s t) (.inr hp) ?_
  intro tr t a u _ ht hok hst
  rcases ht with ⟨i, hi, hmem⟩ | ht
  · exact .inl ⟨i, hi, List.mem_cons_of_mem a hmem⟩
  · rcases ht.step hok (effect_of_step hst) with ⟨i, hi, rfl⟩ | hu
    · exact .inl ⟨i, hi, List.mem_cons_self⟩
    · exact .inr hu

theorem Pending.exists_swapping (hp : Pending s t) :
    ∃ i : ℕ, t.senders[i]? = some .swapping := by
  obtain ⟨i, pc, hi, hpc⟩ := exists_of_weight_pos hp.beforeSwap
  cases pc with
  | swapping => exact ⟨i, hi⟩
  | _ => cases hpc

theorem Pending.willRelaunch (hp : Pending s s) : s.WillRelaunch oneWaitOnly SwapInTime := by
  constructor
  · obtain ⟨i, hi⟩ := hp.exists_swapping
    exact List.mem_of_getElem? hi
  · intro tr t hpath hdone
    rcases hp.path hpath with hswap | ht
    · exact hswap
    · obtain ⟨i, hi⟩ := ht.exists_swapping
      exact absurd hi (hdone i (ht.origin i hi))

theorem attended_of_pos (hpos : 0 < weight Worker.receiving s.workers +
    weight SenderPc.launching s.senders) : s.Attended := by
  rcases Nat.eq_zero_or_pos (weight Worker.receiving s.workers) with hz | hr
  · obtain ⟨i, pc, hi, hpc⟩ := exists_of_weight_pos (w := SenderPc.launching) (l := s.senders)
      (by omega)
    cases pc with
    | spawning => exact .inr (List.mem_of_getElem? hi)
    | _ => cases hpc
  · obtain ⟨i, k, hi, hk⟩ := exists_of_weight_pos hr
    refine .inl ⟨k, List.mem_of_getElem? hi, ?_⟩
    unfold Worker.receiving at *
    split at hk <;> simp_all

theorem Waiting.channel_ne_nil (hw : s.Waiting) : s.channel.items ≠ [] := by
  rcases hw with hw | ⟨info, -, hfull⟩
  · exact hw
  · have hlen := Fifo.push_eq_none.mp hfull
    exact List.ne_nil_of_length_pos (by omega)

/-- No task is stranded in a run whose swaps all come in time. -/
theorem notStranded_of_swapInTime (hr : (system Task Output oneWaitOnly).Run SwapInTime h s) :
    s.NotStranded oneWaitOnly SwapInTime := by
  intro hw
  rcases Nat.eq_zero_or_pos (weight Worker.receiving s.workers +
    weight SenderPc.launching s.senders) with hz | hpos
  · have hp : Pending s s := .refl (single_of_path single_new hr) (covered_of_run hr)
      hw.channel_ne_nil (by omega) (by omega)
    exact .inr hp.willRelaunch
  · exact .inl (attended_of_pos hpos)

/-- A swap that does not come in time strands the task: the condition leaves out nothing else. -/
theorem stranded_of_lateSwap {i : ℕ} {old : Bool}
    (hr : (system Task Output oneWaitOnly).Reachable s) (hlate : ¬ s.SwapInTime (.swap i old))
    (hst : (system Task Output oneWaitOnly).step s (.swap i old) = some t) :
    ¬ t.NotStranded oneWaitOnly ok := by
  obtain ⟨h, hr⟩ := hr
  have hs := single_of_path single_new hr
  simp only [SwapInTime, not_or, not_forall, not_not, Nat.not_le] at hlate
  obtain ⟨⟨k, hk, hpc⟩, hne, hone⟩ := hlate
  obtain ⟨w, hw⟩ := List.mem_iff_getElem?.mp hk
  have hle := le_weight (w := Worker.running) hw
  have hle' := s.threadLaunched.toNat_le
  have hrun : k.running = 1 := by rw [Worker.running, hpc]
  rw [Single] at hs
  intro hstranded
  cases effect_of_step hst with
  | swap hi =>
      have hf : s.threadLaunched = true := by
        cases hf : s.threadLaunched with
        | false =>
            rw [hf, Bool.toNat_false] at hs
            omega
        | true => rfl
      have hb := weight_set (w := SenderPc.beforeSwap) .waking hi
      have hl := weight_set (w := SenderPc.launching) .waking hi
      simp only [SenderPc.beforeSwap, SenderPc.launching] at hb hl
      simp only [hf, if_true] at hstranded
      rcases hstranded (.inl hne) with (⟨k', hk', hrec⟩ | hmem) | ⟨hmem, -⟩
      · obtain ⟨w', hw'⟩ := List.mem_iff_getElem?.mp hk'
        have hrun' := Worker.running_of_receiving hrec
        obtain rfl := eq_of_weight_le_one (w := Worker.running) (by omega) hw hw'
          (by omega) (by omega)
        obtain rfl : k = k' := Option.some.inj (hw.symm.trans hw')
        simp [Worker.receiving, hpc] at hrec
      · have hpos := le_weight_of_mem (w := SenderPc.launching) hmem
        simp only [SenderPc.launching] at hpos
        omega
      · have hpos := le_weight_of_mem (w := SenderPc.beforeSwap) hmem
        simp only [SenderPc.beforeSwap] at hpos
        omega

/-- The worker has timed out and not stored yet when the second sender sends and swaps. -/
def lateSwap : List (PoolLabel ℕ ℕ) :=
  [.submit ⟨0, 0⟩, .send 0, .swap 0 false, .spawn 0, .work 0 .take, .work 0 .timeout,
    .work 0 .next, .work 0 .timeout, .work 0 (.task 0 23), .work 0 .next, .work 0 .timeout,
    .submit ⟨1, 1⟩, .send 1, .swap 1 true, .work 0 .store, .wake 1]

def afterLateSwap : Pool ℕ ℕ where
  channel := ⟨[⟨1, 1⟩], by decide⟩
  threadLaunched := false
  sideChannel := 0
  woken := [0]
  senders := [.returned, .returned]
  workers := [⟨.gone, [], []⟩]
  mailed := [(0, 23)]

theorem exists_strandedTask :
    ¬ ∀ s, (system ℕ ℕ false).Reachable s → s.NotStranded false Free := by
  intro hall
  have hr : (system ℕ ℕ false).Reachable afterLateSwap :=
    ⟨lateSwap.reverse, Lts.path_of_exec _ (by decide)⟩
  rcases hall _ hr (.inl (by decide)) with (⟨k, hk, hk'⟩ | hmem) | ⟨hmem, -⟩
  · obtain rfl := List.mem_singleton.mp hk
    cases hk'
  · revert hmem
    decide
  · revert hmem
    decide

/-- A task that arrives after the store: its sender has sent and will obtain `false`. -/
def arriveLate : List (PoolLabel ℕ ℕ) :=
  [.submit ⟨0, 0⟩, .send 0, .swap 0 false, .spawn 0, .work 0 .take, .work 0 .timeout,
    .work 0 .next, .work 0 .timeout, .work 0 (.task 0 23), .work 0 .next, .work 0 .timeout,
    .submit ⟨1, 1⟩, .send 1, .work 0 .store]

theorem notStranded_arriveLate :
    NotStranded false SwapInTime
      (⟨⟨[⟨1, 1⟩], by decide⟩, false, 0, [], [.returned, .swapping], [⟨.gone, [], []⟩], [(0, 23)]⟩ :
        Pool ℕ ℕ) :=
  notStranded_of_swapInTime (Lts.path_of_exec arriveLate (by decide))

end Pool
end Kiruna.BlockParty
