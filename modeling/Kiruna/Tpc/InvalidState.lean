import Kiruna.Tpc.Conservation
import Kiruna.Tpc.Enqueueing
import Kiruna.Tpc.GlobalState
import Kiruna.Tpc.ScopedSet

/-!
# The invalid state of a guard

`InternalGuard::poll` swaps `State::Invalid` in and puts a valid state back on each of its ways to
return. A poll that panics does not return: the iterator of the tasks, the making of the bin and of
the global state, a thread that the system refuses, the conversion of the number of tasks and the
send of a spawn panic while the state is invalid, and so does a poll after `Ready`, which has
swapped the state before it finds that it is done. What is left is a guard whose next poll and whose
drop reach `unreachable!()`.
-/

namespace Kiruna.Tpc

open Lts (Free)

/-- What the drop of a guard does. -/
inductive DropResult
  | returned
  | panicked (message : String)
  deriving DecidableEq

/-- What `tasks.into_iter().collect()` does. -/
inductive TaskIterator
  | yields (tasks : ℕ)
  | panics
  deriving DecidableEq

/-- What the first poll of a guard meets: the iterator of its tasks, whether `Bin::user_waiting()`
returns (the first call makes the semaphores and the timer, which the system may refuse), the global
state unless `threadpool_size` panics, and how many threads the system still starts. -/
structure FirstPoll where
  iterator : TaskIterator
  bin : Bool
  global : Option GlobalState
  threads : ℕ

namespace FirstPoll

variable (f : FirstPoll)

/-- `enforce_spare_thread_policy`: it panics in `GlobalState::global` or in `spawn_thread`. -/
def enforceSpareThreadPolicy (comingSoon : ℕ) : CallResult :=
  match f.global with
  | none => .panicked
  | some state =>
      match (state.enforce comingSoon).2 with
      | .ok oldThreads =>
          let launchAmount :=
            state.proposedThreads comingSoon - (ThreadCounts.ofUInt64 oldThreads).userWaiting
          if launchAmount.toNat ≤ f.threads then .returned else .panicked
      | .error _ => .returned

/-- The number of tasks with which the first poll comes past `enforce_spare_thread_policy`. -/
def comingSoon : Option ℕ :=
  match f.iterator with
  | .panics => none
  | .yields tasks =>
      if f.bin ∧ f.enforceSpareThreadPolicy tasks = .returned then some tasks else none

/-- The number of children of the set. -/
def children : ℕ := f.comingSoon.getD 0

/-- The policy finds its threads running or can start them. -/
def HasThreads (comingSoon : ℕ) : Prop :=
  ∃ state, f.global = some state ∧ min comingSoon state.physicalCpus.toNat ≤
    state.readThreadCounts.userWaiting.toNat + f.threads

/-- The first poll comes to its loop. -/
def Proceeds : Prop :=
  ∃ tasks < 2 ^ 32, f.iterator = .yields tasks ∧ f.bin = true ∧ f.HasThreads tasks

variable {f}

theorem enforceSpareThreadPolicy_eq_returned_iff {comingSoon : ℕ} :
    f.enforceSpareThreadPolicy comingSoon = .returned ↔ f.HasThreads comingSoon := by
  unfold enforceSpareThreadPolicy HasThreads
  cases f.global with
  | none => simp
  | some state =>
      have hproposed := state.toNat_proposedThreads comingSoon
      simp only [Option.some.injEq, exists_eq_left']
      rcases UInt16.lt_or_le state.readThreadCounts.userWaiting
        (state.proposedThreads comingSoon) with hlt | hle
      · rw [GlobalState.enforce_of_lt hlt]
        have hsub := UInt16.toNat_sub_of_le _ _ (UInt16.le_of_lt hlt)
        have hnat := UInt16.lt_iff_toNat_lt.mp hlt
        change (if (state.proposedThreads comingSoon -
          state.readThreadCounts.userWaiting).toNat ≤ f.threads then _ else _) = _ ↔ _
        rw [hsub]
        split_ifs with hthreads
        · simp only [true_iff]
          omega
        · simp only [false_iff]
          omega
      · rw [GlobalState.enforce_of_le hle]
        have hnat := UInt16.le_iff_toNat_le.mp hle
        simp only [true_iff]
        omega

theorem proceeds_iff : f.Proceeds ↔ ∃ tasks < 2 ^ 32, f.comingSoon = some tasks := by
  refine exists_congr fun tasks => and_congr_right fun _ => ?_
  rw [← enforceSpareThreadPolicy_eq_returned_iff, comingSoon]
  cases f.iterator with
  | panics => simp
  | yields n =>
      simp only [TaskIterator.yields.injEq]
      constructor
      · rintro ⟨rfl, hbin, hpolicy⟩
        rw [if_pos ⟨hbin, hpolicy⟩]
      · intro hsome
        split_ifs at hsome with hready
        obtain rfl := Option.some.inj hsome
        exact ⟨rfl, hready⟩

end FirstPoll

namespace InternalGuard

open Bin (HasRoom)

/-- `Drop for InternalGuard`. -/
def drop (g : InternalGuard) : DropResult :=
  match g.state with
  | .notSpawned | .done => .returned
  | .spawned => .panicked "Can't drop a guard while tasks are active"
  | .invalid => .panicked "internal error: entered unreachable code"

/-- A step of `InternalGuard::poll` of a set made from an iterator. A first poll that does not come
past `enforce_spare_thread_policy` panics while the state is invalid. -/
def pollFrom (f : FirstPoll) (g : InternalGuard) (o : ScopedStep) :
    Option (InternalGuard × Option (ℕ ⊕ Empty)) :=
  match f.comingSoon with
  | some tasks => pollStep tasks g o
  | none =>
      match o, g.state with
      | .poll, .notSpawned =>
          if g.pc = .idle ∨ g.pc = .panicked then
            some ({ g with
              state := .invalid
              polls := g.polls + 1
              result := none
              pc := .panicked }, none)
          else none
      | o, _ => pollStep 0 g o

/-- The guard of a set made from an iterator, and its children, as a client of the bin. -/
abbrev iteratorClient (f : FirstPoll) :
    Client ℕ Empty ChildPc InternalGuard ChildAction ScopedStep :=
  { client f.children with owner := pollFrom f }

variable {f : FirstPoll} {tasks bounded : ℕ} {g g' : InternalGuard}
  {m : Option (ℕ ⊕ Empty)} {s t : Bin ℕ Empty ChildPc InternalGuard bounded}
  {h : List (BinLabel ChildAction ScopedStep)}
  {ok : Bin ℕ Empty ChildPc InternalGuard bounded → BinLabel ChildAction ScopedStep → Prop}

theorem iteratorClient_of_some (hf : f.comingSoon = some tasks) :
    iteratorClient f = client tasks := by
  have howner : pollFrom f = pollStep tasks := by
    funext g o
    simp only [pollFrom, hf]
  simp only [iteratorClient, howner]

theorem polls_of_pollFrom {o : ScopedStep} (h : pollFrom f g o = some (g', m)) :
    Polls f.children g g' m := by
  unfold pollFrom at h
  cases hf : f.comingSoon with
  | some tasks =>
      rw [hf] at h
      have hcount : f.children = tasks := by rw [FirstPoll.children, hf, Option.getD_some]
      rw [hcount]
      exact polls_of_owner h
  | none =>
      have hcount : f.children = 0 := by rw [FirstPoll.children, hf, Option.getD_none]
      simp only [hf] at h
      rw [hcount]
      split at h
      · rename_i hstate
        split_ifs at h
        cases h
        exact .again (.inr rfl) nofun fun hs => by simp [hstate] at hs
      · exact polls_of_owner h

/-- What the state says of the polls. It stays invalid while a poll is in progress. -/
structure StateInv (g : InternalGuard) : Prop where
  notSpawned : g.state = .notSpawned ↔ g.polls = 0
  done : g.state = .done ↔ g.result = some .ready
  polling : g.pc ≠ .idle → g.state = .invalid

theorem stateInv_new : StateInv new where
  notSpawned := ⟨fun _ => rfl, fun _ => rfl⟩
  done := ⟨nofun, nofun⟩
  polling := fun h => absurd rfl h

theorem StateInv.polled (hg : StateInv g) (hpc : g.pc ≠ .idle) : g.polls ≠ 0 := by
  intro hz
  have hstate := hg.notSpawned.mpr hz
  rw [hg.polling hpc] at hstate
  cases hstate

theorem StateInv.poll (hg : StateInv g) (hp : Polls tasks g g' m) : StateInv g' := by
  cases hp with
  | first | again => exact ⟨⟨nofun, nofun⟩, ⟨nofun, nofun⟩, fun _ => rfl⟩
  | spawn hpc | spawned hpc | loadFailed hpc | register hpc =>
      exact ⟨hg.notSpawned, hg.done, fun _ => hg.polling (by simp [hpc])⟩
  | ready _ hpc =>
      exact ⟨⟨nofun, fun hz => absurd hz (hg.polled hpc)⟩, ⟨fun _ => rfl, fun _ => rfl⟩,
        fun h => absurd rfl h⟩
  | pending hpc =>
      have hpolled := hg.polled (by rcases hpc with hpc | hpc <;> simp [hpc])
      exact ⟨⟨nofun, fun hz => absurd hz hpolled⟩, ⟨nofun, nofun⟩, fun h => absurd rfl h⟩

theorem StateInv.act (hg : StateInv g) {p p' : ChildPc} (ha : Acts g p g' p') : StateInv g' := by
  cases ha <;> exact ⟨hg.notSpawned, hg.done, hg.polling⟩

theorem stateInv_of_run (hr : (Bin.system (iteratorClient f) bounded).Run ok h s) :
    StateInv s.state := by
  refine Bin.state_invariant hr stateInv_new ?_ ?_ ?_
  · intro h s p a g p' _ hg _ ha
    have ha : (client f.children).act s.state p a = some (g, p') := ha
    exact hg.act (acts_of_act ha)
  · intro h s o g m _ hg ho
    exact hg.poll (polls_of_pollFrom ho)
  · intro h s o g m _ hg _ _ ho
    have hp := polls_of_pollFrom ho
    have hg' := hg.poll hp
    cases hp with
    | spawn => exact ⟨hg'.notSpawned, hg'.done, fun _ => hg'.polling nofun⟩

theorem pollStep_panicked_iff {o : ScopedStep} (h : pollStep tasks g o = some (g', m)) :
    g'.pc = .panicked ↔
      o = .poll ∧
        (g.state = .invalid ∨ g.state = .done ∨ g.state = .notSpawned ∧ 2 ^ 32 ≤ tasks) := by
  cases o with
  | poll =>
      simp only [pollStep] at h
      split at h
      · split at h
        · rename_i hstate
          split_ifs at h with hlt <;> cases h
          · simpa [hstate] using hlt
          · simpa [hstate] using Nat.le_of_not_lt hlt
        all_goals
          rename_i hstate
          cases h
          simp [hstate]
      · cases h
  | next =>
      simp only [pollStep] at h
      split at h
      · split_ifs at h <;> cases h <;> simp
      · cases h
  | register =>
      simp only [pollStep] at h
      split at h <;> cases h
      simp
  | load =>
      simp only [pollStep] at h
      split at h
      all_goals cases h
      all_goals split_ifs <;> simp [finish]

/-- The poll panics before its loop: it is one after `Ready`, or the first one and does not come
there. -/
def PollPanics (f : FirstPoll) (g : InternalGuard) : Prop :=
  g.state = .done ∨ g.state = .notSpawned ∧ ¬ f.Proceeds

theorem pollFrom_panicked_iff {o : ScopedStep} (h : pollFrom f g o = some (g', m)) :
    g'.pc = .panicked ↔ o = .poll ∧ (g.state = .invalid ∨ PollPanics f g) := by
  rw [PollPanics, FirstPoll.proceeds_iff]
  unfold pollFrom at h
  cases hf : f.comingSoon with
  | some tasks =>
      rw [hf] at h
      have htasks : (¬ ∃ n < 2 ^ 32, some tasks = some n) ↔ 2 ^ 32 ≤ tasks := by
        constructor
        · intro hnot
          by_contra hlt
          exact hnot ⟨tasks, Nat.lt_of_not_le hlt, rfl⟩
        · rintro hle ⟨n, hn, hsome⟩
          obtain rfl := Option.some.inj hsome
          omega
      rw [pollStep_panicked_iff h, htasks]
  | none =>
      simp only [hf] at h
      split at h
      · rename_i hstate
        split_ifs at h
        cases h
        simp [hstate]
      · rename_i hnot
        rw [pollStep_panicked_iff h]
        refine and_congr_right fun ho => ?_
        have hstate : g.state ≠ .notSpawned := hnot ho
        simp [hstate]

/-- No poll panics: at its start, or in the loop that spawns. -/
def PollFits (f : FirstPoll) (s : Bin ℕ Empty ChildPc InternalGuard bounded) :
    BinLabel ChildAction ScopedStep → Prop
  | .owner o => (o = .poll → ¬ PollPanics f s.state) ∧ HasRoom (iteratorClient f) s (.owner o)
  | _ => True

/-- Between two polls the state is valid. -/
structure Intact (g : InternalGuard) : Prop where
  pc : g.pc ≠ .panicked
  state : g.pc = .idle → g.state ≠ .invalid

theorem intact_new : Intact new := ⟨by decide, by decide⟩

theorem Intact.act (hg : Intact g) {p p' : ChildPc} (ha : Acts g p g' p') : Intact g' := by
  cases ha <;> exact ⟨hg.pc, hg.state⟩

theorem Polls.state_ne_invalid (hp : Polls tasks g g' m) (hpc : g'.pc = .idle) :
    g'.state ≠ .invalid := by
  cases hp with
  | again hpc' =>
      obtain rfl := hpc
      rcases hpc' with h | h <;> cases h
  | ready | pending => exact nofun
  | _ => cases hpc

theorem between_of_poll (h : pollFrom f g .poll = some (g', m)) :
    g.pc = .idle ∨ g.pc = .panicked := by
  by_contra hpc
  unfold pollFrom at h
  cases hf : f.comingSoon with
  | some tasks => simp [hf, pollStep, hpc] at h
  | none =>
      simp only [hf] at h
      split at h <;> simp [pollStep, hpc] at h

theorem Intact.owner (hg : Intact g) {o : ScopedStep} (hfits : o = .poll → ¬ PollPanics f g)
    (h : pollFrom f g o = some (g', m)) : Intact g' := by
  refine ⟨fun hpanicked => ?_, (polls_of_pollFrom h).state_ne_invalid⟩
  obtain ⟨rfl, hinvalid | hpanics⟩ := (pollFrom_panicked_iff h).mp hpanicked
  · exact hg.state ((between_of_poll h).resolve_right hg.pc) hinvalid
  · exact hfits rfl hpanics

theorem sending_owner {o : ScopedStep} {k : ℕ}
    (h : pollFrom f s.state o = some (g', some (.inl k))) :
    s.sending (iteratorClient f) (.owner o) = some (.work s.futures.length, 1) := by
  simp only [Bin.sending, h]

theorem intact_of_run (hr : (Bin.system (iteratorClient f) bounded).Run (PollFits f) h s) :
    Intact s.state := by
  refine hr.induct (P := fun _ s => Intact s.state) intact_new ?_
  intro h s a t hs ih hfits hst
  cases Bin.effect_of_step hst with
  | actPoll _ ha | actJob _ ha =>
      have ha : (client f.children).act _ _ _ = some (_, _) := ha
      exact ih.act (acts_of_act ha)
  | owner ho => exact ih.owner hfits.1 ho
  | spawnFuture ho => exact ih.owner hfits.1 ho
  | @spawnJob o st j => exact j.elim
  | @spawnFailed o st m ho hfull =>
      cases m with
      | inr j => exact j.elim
      | inl k =>
          have hroom : lengthAt s.channel 1 < bounded := hfits.2 _ (sending_owner ho)
          have hlen := Bin.full_of_send_eq_none hs (by omega) (hfull .idle)
          omega
  | _ => exact ih

/-- What a call of `poll` leaves, whether it returned or panicked. -/
structure Restored (g : InternalGuard) : Prop where
  state : g.state = .notSpawned ∨ g.state = .spawned ∨ g.state = .done
  drop : g.drop ≠ .panicked "internal error: entered unreachable code"

theorem restored_iff : Restored g ↔ g.state ≠ .invalid := by
  constructor
  · rintro ⟨hstate, -⟩ hinvalid
    simp [hinvalid] at hstate
  · intro hstate
    cases hg : g.state with
    | invalid => exact absurd hg hstate
    | _ => exact ⟨by simp [hg], by simp [drop, hg]⟩

/-- The step of a poll that panics. -/
theorem panicked_of_not_fits {a : BinLabel ChildAction ScopedStep} (hfits : ¬ PollFits f s a)
    (hst : (Bin.system (iteratorClient f) bounded).step s a = some t) :
    t.state.pc = .panicked := by
  cases Bin.effect_of_step hst with
  | @owner o st ho =>
      by_contra hpc
      refine hfits ⟨fun ho' hpanics => ?_, fun msg hmsg => ?_⟩
      · exact hpc ((pollFrom_panicked_iff ho).mpr ⟨ho', .inr hpanics⟩)
      · simp [Bin.sending, show pollFrom f s.state o = some (st, none) from ho] at hmsg
  | @spawnFuture o st k c ho hc =>
      by_contra hpc
      refine hfits ⟨fun ho' hpanics => ?_, fun msg hmsg => ?_⟩
      · exact hpc ((pollFrom_panicked_iff ho).mpr ⟨ho', .inr hpanics⟩)
      · obtain rfl := Option.some.inj ((sending_owner ho).symm.trans hmsg)
        exact hc.lengthAt_lt
  | @spawnJob o st j => exact j.elim
  | spawnFailed => rfl
  | _ => exact absurd trivial hfits

/-- No poll is in progress: the last one has returned or panicked. -/
def BetweenPolls (g : InternalGuard) : Prop := g.pc = .idle ∨ g.pc = .panicked

/-- Every poll of a run leaves a valid state if and only if none of them panics. -/
theorem run_restored_iff (hr : (Bin.system (iteratorClient f) bounded).Run Free h s) :
    (∀ h' t, h' <:+ h → (Bin.system (iteratorClient f) bounded).Run Free h' t →
        t.state.BetweenPolls → Restored t.state) ↔
      (Bin.system (iteratorClient f) bounded).Run (PollFits f) h s := by
  constructor
  · intro hall
    induction hr with
    | refl => exact .refl
    | @snoc h s t a hs _ hst ih =>
        refine (ih fun h' t hsub => hall h' t (hsub.trans (List.suffix_cons a h))).snoc ?_ hst
        by_contra hfits
        have hpc := panicked_of_not_fits hfits hst
        have hrun := hs.snoc trivial hst
        have hinv := (stateInv_of_run hrun).polling (by rw [hpc]; exact nofun)
        exact restored_iff.mp (hall _ _ List.suffix_rfl hrun (.inr hpc)) hinv
  · intro hfits h' t hsub hrun hpc
    obtain ⟨u, hu⟩ := hfits.of_suffix hsub
    obtain rfl := hrun.unique hu
    have hintact := intact_of_run hu
    exact restored_iff.mpr (hintact.state (hpc.resolve_right hintact.pc))

/-- An empty set is ready at its first poll and polled once more. -/
def pollAfterReady : List (BinLabel ChildAction ScopedStep) :=
  [.owner .poll, .owner .next, .owner .load, .owner .poll]

def emptySet : FirstPoll := ⟨.yields 0, true, some (.new 4), 0⟩

def afterPollAfterReady : Bin ℕ Empty ChildPc InternalGuard 1000000 :=
  ⟨[.empty, .empty], [], [], ⟨.invalid, .panicked, 2, none, some ⟨0, ⟨some 1, []⟩⟩, []⟩⟩

theorem run_pollAfterReady : (Bin.system (iteratorClient emptySet) 1000000).Run Free
    pollAfterReady.reverse afterPollAfterReady :=
  Lts.path_of_exec pollAfterReady (by decide)

theorem not_fits_pollAfterReady :
    ¬ (Bin.system (iteratorClient emptySet) 1000000).Run (PollFits emptySet)
      pollAfterReady.reverse afterPollAfterReady := by
  intro hfits
  have hrun := run_pollAfterReady
  have hrestored := (run_restored_iff hrun).mpr hfits _ _ List.suffix_rfl hrun (.inr rfl)
  exact restored_iff.mp hrestored rfl

/-- The drop of the guard reaches `unreachable!()`. -/
theorem exists_not_restored :
    ¬ ∀ f s, (Bin.system (iteratorClient f) 1000000).Reachable s → s.state.BetweenPolls →
      Restored s.state := by
  intro hall
  exact (hall emptySet _ run_pollAfterReady.reachable (.inr rfl)).drop rfl

end InternalGuard
end Kiruna.Tpc
