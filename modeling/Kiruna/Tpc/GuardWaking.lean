import Kiruna.Tpc.SimpleGuardJobs

/-!
# The wakes of a simple set

The guard changes in its own polls and in the actions of its jobs. Only the job that brings the
counter to zero calls `AtomicWaker::wake`, and the counter comes to zero once, so a set wakes at
most one waker however often it is polled.
-/

namespace Kiruna.Tpc.SimpleGuard

variable {State Local Action : Type*} {jobs : UInt32} {K : JobCreator State Local Action}
  {bounded : ℕ} {g : SimpleGuard State}
  {s t : Bin Empty ℕ (JobPc Local) (SimpleGuard State) bounded}
  {a : BinLabel (JobAction Action) GuardStep} {h : List (BinLabel (JobAction Action) GuardStep)}

/-- The guard enters `poll`. -/
def begins : BinLabel (JobAction Action) GuardStep → Bool
  | .owner .poll => true
  | _ => false

/-- A job calls `AtomicWaker::wake`. -/
def wakes : BinLabel (JobAction Action) GuardStep → Bool
  | .work _ (.act .wake) => true
  | _ => false

theorem acts_of_some {p p' : JobPc Local} {b : JobAction Action} {g' : SimpleGuard State}
    (ha : act K g p b = some (g', p')) : Acts K g p g' p' :=
  acts_of_act (show (client 0 K).act g p b = some (g', p') from ha)

/-- What a step of the bin makes of the guard. -/
inductive Changes (jobs : UInt32) (K : JobCreator State Local Action)
    (s : Bin Empty ℕ (JobPc Local) (SimpleGuard State) bounded) :
    BinLabel (JobAction Action) GuardStep → SimpleGuard State → Prop
  | act {w : ℕ} {p p' : JobPc Local} {b : JobAction Action} {g : SimpleGuard State}
      (hp : s.Running p) (ha : act K s.state p b = some (g, p')) :
      Changes jobs K s (.work w (.act b)) g
  | owner {o : GuardStep} {g : SimpleGuard State} {m : Option (Empty ⊕ ℕ)}
      (ho : pollStep jobs s.state o = some (g, m)) : Changes jobs K s (.owner o) g
  | failed {job : ℕ} (hpc : s.state.pc = .spawning job) :
      Changes jobs K s (.owner .next) { s.state with pc := .panicked job }
  | same {a : BinLabel (JobAction Action) GuardStep} (hbegins : begins a = false)
      (hwakes : wakes a = false) : Changes jobs K s a s.state

/-- A step that hands over a job is one of the loop. -/
theorem next_of_pollStep {o : GuardStep} {m : Empty ⊕ ℕ} {g' : SimpleGuard State}
    (ho : pollStep jobs g o = some (g', some m)) : o = .next := by
  cases o with
  | next => rfl
  | poll | register | load =>
      simp only [pollStep] at ho
      split at ho <;> cases ho

theorem changes_of_step (hst : s.step (client jobs K) a = some t) :
    Changes jobs K s a t.state := by
  cases Bin.effect_of_step hst with
  | actPoll hw ha => exact .act (.inr ⟨_, List.mem_of_getElem? hw⟩) ha
  | actJob hw ha => exact .act (.inl (List.mem_of_getElem? hw)) ha
  | owner ho | spawnJob ho => exact .owner ho
  | @spawnFuture o st u => exact u.elim
  | spawnFailed ho =>
      obtain ⟨job, hpc, -, hfail⟩ := (polls_of_owner ho).failed
      obtain rfl := next_of_pollStep ho
      change Changes jobs K s _ (sendFailed _)
      rw [hfail]
      exact .failed hpc
  | _ => exact .same rfl rfl

/-- Only a wake wakes. -/
theorem Changes.woken (hc : Changes jobs K s a g) : g.shared.waker.woken =
    s.state.shared.waker.woken ++
      if wakes a then s.state.shared.waker.registered.toList else [] := by
  cases hc with
  | @act w p p' b g hp ha =>
      cases b with
      | wake =>
          cases p <;> cases ha
          rfl
      | _ =>
          have hsame : g.shared.waker = s.state.shared.waker := by
            cases acts_of_some ha with
            | wake j => cases ha
            | _ => rfl
          rw [hsame]
          exact (List.append_nil _).symm
  | @owner o g m ho =>
      have hsame : g.shared.waker.woken = s.state.shared.waker.woken := by
        cases polls_of_owner (K := K) ho <;> rfl
      rw [hsame]
      exact (List.append_nil _).symm
  | failed hpc => exact (List.append_nil _).symm
  | same hbegins hwakes => simp [hwakes]

theorem Changes.polls (hc : Changes jobs K s a g) :
    g.polls = s.state.polls + if begins a then 1 else 0 := by
  cases hc with
  | act hp ha => cases acts_of_some ha <;> rfl
  | @owner o g m ho =>
      have hp : Polls jobs s.state g m := polls_of_owner (K := K) ho
      cases o with
      | poll =>
          simp only [pollStep] at ho
          split at ho <;> cases ho <;> rfl
      | next | register | load =>
          cases hp with
          | poll hpc | again hpc => simp [pollStep, hpc] at ho
          | _ => rfl
  | failed hpc => rfl
  | same hbegins hwakes => simp [hbegins]

/-- Between two polls the result stands. -/
theorem Changes.idle (hc : Changes jobs K s a g) (hpc : s.state.pc = .idle)
    (hbegins : begins a = false) : g.pc = .idle ∧ g.result = s.state.result := by
  cases hc with
  | act hp ha => cases acts_of_some ha <;> exact ⟨hpc, rfl⟩
  | @owner o g m ho =>
      cases o with
      | poll => cases hbegins
      | _ => simp [pollStep, hpc] at ho
  | failed hspawning => simp [hpc] at hspawning
  | same => exact ⟨hpc, rfl⟩

theorem Changes.panicked (hc : Changes jobs K s a g) {job : ℕ} (hpc : s.state.pc = .panicked job)
    (hbegins : begins a = false) : g.pc = .panicked job := by
  cases hc with
  | act hp ha => cases acts_of_some ha <;> exact hpc
  | @owner o g m ho =>
      cases o with
      | poll => cases hbegins
      | _ => simp [pollStep, hpc] at ho
  | failed hspawning => simp [hpc] at hspawning
  | same => exact hpc

/-- A poll is pending only if it saw a counter that is not zero. -/
theorem Changes.pending (hc : Changes jobs K s a g) (hres : g.result = some .pending) :
    (begins a = false ∧ s.state.result = some .pending) ∨
      s.state.shared.childrenRemaining ≠ 0 := by
  cases hc with
  | act hp ha => cases acts_of_some ha <;> exact .inl ⟨rfl, hres⟩
  | @owner o g m ho =>
      have hp : Polls jobs s.state g m := polls_of_owner (K := K) ho
      cases o with
      | poll =>
          simp only [pollStep] at ho
          split at ho <;> cases ho <;> cases hres
      | next | register | load =>
          cases hp with
          | poll | again => cases hres
          | load hpc =>
              refine .inr fun hz => ?_
              simp [hz] at hres
          | _ => exact .inl ⟨rfl, hres⟩
  | failed => exact .inl ⟨rfl, hres⟩
  | same hbegins => exact .inl ⟨hbegins, hres⟩

/-- A poll that has ended has a result. -/
theorem Changes.ended (hc : Changes jobs K s a g)
    (hs : begins a = true ∨ (s.state.pc = .idle → s.state.result ≠ none)) (hpc : g.pc = .idle) :
    g.result ≠ none := by
  have hsame : begins a = false → s.state.pc = .idle → s.state.result ≠ none := by
    intro hbegins
    simpa [hbegins] using hs
  cases hc with
  | act hp ha => cases acts_of_some ha <;> exact hsame rfl hpc
  | owner ho =>
      cases polls_of_owner (K := K) ho with
      | poll | again => cases hspawned : s.state.spawned <;> simp [enter, hspawned] at hpc
      | load => simp
      | _ => cases hpc
  | failed => cases hpc
  | same hbegins => exact hsame hbegins hpc

theorem Changes.decremented (hc : Changes jobs K s a g) :
    s.state.decremented.length ≤ g.decremented.length := by
  cases hc with
  | act hp ha => cases acts_of_some ha <;> simp
  | owner ho => cases polls_of_owner (K := K) ho <;> exact le_rfl
  | failed | same => exact le_rfl

/-- The counter stays at zero. -/
theorem childrenRemaining_of_step (hr : (Bin.system (client jobs K) bounded).Run NotPolledAgain h s)
    (hst : s.step (client jobs K) a = some t) (hok : NotPolledAgain s a)
    (hz : s.state.shared.childrenRemaining = 0) : t.state.shared.childrenRemaining = 0 := by
  have hs := (guardInv_of_run hr).remaining
  have ht := (guardInv_of_run (hr.snoc hok hst)).remaining
  have hle := (changes_of_step hst).decremented
  rw [hz, UInt32.toNat_zero] at hs
  exact UInt32.toNat_inj.mp (by rw [UInt32.toNat_zero]; omega)

/-- A waker was woken, or is about to be, only when the counter is at zero; and there is one such
wake. -/
theorem woken_le (hr : (Bin.system (client jobs K) bounded).Run NotPolledAgain h s) :
    s.state.shared.waker.woken.length + s.state.decremented.length ≤
      s.state.finished.length + if s.state.shared.childrenRemaining = 0 then 1 else 0 := by
  refine Bin.state_invariant (P := fun g => g.shared.waker.woken.length + g.decremented.length ≤
    g.finished.length + if g.shared.childrenRemaining = 0 then 1 else 0) hr (Nat.zero_le _) ?_ ?_ ?_
  · intro h s p a g p' hr hle hp ha
    have hpos : p.stage ≤ 2 → 0 < s.state.shared.childrenRemaining.toNat := by
      intro hstage
      have hlt := length_log_lt hr hp (r := 2) (by omega) hstage
      have hrem := (guardInv_of_run hr).remaining
      simp only [log] at hlt
      omega
    cases acts_of_some ha with
    | call | creator | returned | panicked => exact hle
    | @last j hone =>
        have hzero : s.state.shared.childrenRemaining - 1 = 0 := by rw [hone]; rfl
        have hne : s.state.shared.childrenRemaining ≠ 0 := by rw [hone]; decide
        simp only [hzero, if_neg hne, if_true, List.length_append, List.length_singleton] at hle ⊢
        omega
    | @notLast j hone =>
        have hpos := hpos le_rfl
        have hne : s.state.shared.childrenRemaining ≠ 0 := by
          intro hz
          rw [hz] at hpos
          exact Nat.lt_irrefl 0 hpos
        have hne' : s.state.shared.childrenRemaining - 1 ≠ 0 := by
          intro hz
          have hz' := congrArg UInt32.toNat hz
          rw [toNat_sub_one hpos] at hz'
          exact hone (UInt32.toNat_inj.mp (by simp at hz' ⊢; omega))
        simp only [if_neg hne, if_neg hne', List.length_append, List.length_singleton] at hle ⊢
        omega
    | wake j =>
        have htoList : s.state.shared.waker.registered.toList.length ≤ 1 := by
          cases s.state.shared.waker.registered <;> simp
        simp only [AtomicWaker.wake, List.length_append, List.length_singleton]
        omega
  · intro h s o g m _ hle ho
    cases polls_of_owner (K := K) ho <;> exact hle
  · intro h s o g m _ hle _ _ ho
    obtain ⟨job, -, -, hfail⟩ := (polls_of_owner ho).failed
    change (sendFailed g).shared.waker.woken.length + (sendFailed g).decremented.length ≤
      (sendFailed g).finished.length + if (sendFailed g).shared.childrenRemaining = 0 then 1 else 0
    rw [hfail]
    exact hle

theorem childrenRemaining_of_woken
    (hr : (Bin.system (client jobs K) bounded).Run NotPolledAgain h s)
    (hwoken : 0 < s.state.shared.waker.woken.length) :
    s.state.shared.childrenRemaining = 0 := by
  have hle := woken_le hr
  have hlen := length_finished_le hr
  by_contra hne
  rw [if_neg hne] at hle
  omega

/-- A poll that has come past its loop, or has ended, has handed over all jobs. -/
theorem spawned_of_run (hr : (Bin.system (client jobs K) bounded).Run NotPolledAgain h s)
    (hpast : s.state.pc = .register ∨ s.state.pc = .load ∨ s.state.result ≠ none) :
    s.state.spawned = true := by
  revert hpast
  refine Bin.state_invariant (P := fun g => g.pc = .register ∨ g.pc = .load ∨ g.result ≠ none →
    g.spawned = true) hr (by simp [new]) ?_ ?_ ?_
  · intro h s p a g p' _ hs hp ha
    cases acts_of_some ha <;> exact hs
  · intro h s o g m _ hs ho
    cases polls_of_owner (K := K) ho with
    | poll | again => cases hspawned : s.state.spawned <;> simp [enter, hspawned]
    | spawn => exact fun hpast => hs (.inr (.inr (by simpa using hpast)))
    | spawned => exact fun _ => rfl
    | register hpc => exact fun _ => hs (.inl hpc)
    | load hpc => exact fun _ => hs (.inr (.inl hpc))
  · intro h s o g m _ hs _ _ ho
    obtain ⟨job, -, -, hfail⟩ := (polls_of_owner ho).failed
    change (sendFailed g).pc = .register ∨ (sendFailed g).pc = .load ∨
      (sendFailed g).result ≠ none → (sendFailed g).spawned = true
    rw [hfail]
    exact fun hpast => hs (.inr (.inr (by simpa using hpast)))

theorem length_woken_le (hr : (Bin.system (client jobs K) bounded).Run NotPolledAgain h s) :
    s.state.shared.waker.woken.length ≤ 1 := by
  have hle := woken_le hr
  have hlen := length_finished_le hr
  split_ifs at hle <;> omega

end Kiruna.Tpc.SimpleGuard
