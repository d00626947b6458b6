import Kiruna.Tpc.BinStep

/-!
# A bin without futures

Where nobody spawns a future the workers wait, run jobs, or have ended, and the channel brings jobs
and idle messages only.
-/

namespace Kiruna.Tpc.Bin

variable {Job Local State Action Owner : Type*} {bounded : ℕ}
  {C : Client Empty Job Local State Action Owner} {s : Bin Empty Job Local State bounded}
  {ok : Bin Empty Job Local State bounded → BinLabel Action Owner → Prop}
  {h : List (BinLabel Action Owner)}

theorem futures_eq_nil (s : Bin Empty Job Local State bounded) : s.futures = [] := by
  cases hs : s.futures with
  | nil => rfl
  | cons u l => exact u.underlying.elim

/-- A bin that runs jobs only. -/
structure OnlyJobs (C : Client Empty Job Local State Action Owner)
    (s : Bin Empty Job Local State bounded) : Prop where
  queued : ∀ q ∈ s.channel, ∀ m ∈ q.items, ∀ f, m ≠ .work f
  workers : ∀ pc ∈ s.workers, pc = .recv ∨ pc = .idle ∨ pc = .gone ∨ (∃ p, pc = .job p) ∨
    ∃ p, pc = .panicked (some p) ∧ C.result p = some .panicked

theorem OnlyJobs.move {t : Bin Empty Job Local State bounded} (hs : OnlyJobs C s) {w : ℕ}
    {pc : WorkerPc Local} (hchannel : t.channel = s.channel)
    (hworkers : t.workers = s.workers.set w pc)
    (hpc : pc = .recv ∨ pc = .idle ∨ pc = .gone ∨ (∃ p, pc = .job p) ∨
      ∃ p, pc = .panicked (some p) ∧ C.result p = some .panicked) : OnlyJobs C t where
  queued := by
    rw [hchannel]
    exact hs.queued
  workers := by
    rw [hworkers]
    exact forall_mem_set hs.workers hpc

theorem OnlyJobs.sent {level : ℕ} {m : ThreadMessage Job}
    {c : List (Fifo (ThreadMessage Job) bounded)} (hs : OnlyJobs C s)
    (hc : Sent s.channel level m c) (hm : ∀ f, m ≠ .work f) :
    ∀ q ∈ c, ∀ m ∈ q.items, ∀ f, m ≠ .work f := by
  obtain ⟨q, q', hq, hitems, rfl⟩ := hc
  refine forall_mem_set hs.queued ?_
  intro m' hm'
  rw [hitems] at hm'
  rcases List.mem_append.mp hm' with hm' | hm'
  · exact hs.queued q (List.mem_of_getElem? hq) m' hm'
  · rw [List.mem_singleton.mp hm']
    exact hm

theorem onlyJobs_of_run (hr : (system C bounded).Run ok h s) : OnlyJobs C s := by
  refine hr.invariant (P := OnlyJobs C) (fun s a t hs _ hst => ?_) ⟨?_, by simp [system, new]⟩
  · cases effect_of_step hst with
    | startWorker =>
        refine ⟨hs.queued, fun pc hpc => ?_⟩
        rcases List.mem_append.mp hpc with hpc | hpc
        · exact hs.workers pc hpc
        · exact .inl (List.mem_singleton.mp hpc)
    | @recv w level m c hw hc =>
        obtain ⟨q, q', hq, hitems, rfl⟩ := hc
        have hqueued := hs.queued q (List.mem_of_getElem? hq)
        rw [hitems] at hqueued
        refine ⟨forall_mem_set hs.queued fun m' hm' => hqueued m' (.tail _ hm'),
          forall_mem_set hs.workers ?_⟩
        cases m with
        | simple j => exact .inr (.inr (.inr (.inl ⟨_, rfl⟩)))
        | idle => exact .inr (.inl rfl)
        | work f => exact absurd rfl (hqueued (.work f) (.head _) f)
    | actJob hw ha => exact hs.move rfl rfl (by simp)
    | panickedInJob hw hres => exact hs.move rfl rfl (by simp [hres])
    | returned hw hres => exact hs.move rfl rfl (by simp)
    | idle hw =>
        refine hs.move rfl rfl ?_
        split_ifs <;> simp
    | sendIdle hc => exact ⟨hs.sent hc (by simp), hs.workers⟩
    | spawnJob ho hc => exact ⟨hs.sent hc (by simp), hs.workers⟩
    | sendIdleFailed => exact hs
    | owner | spawnFailed => exact ⟨hs.queued, hs.workers⟩
    | @spawnFuture o st u => exact u.elim
    | @actPoll w f p p' a st hw =>
        have hworker := hs.workers _ (List.mem_of_getElem? hw)
        simp at hworker
    | retryFailed hw | wakeInPollFailed hw | pending hw | panickedInPoll hw =>
        have hworker := hs.workers _ (List.mem_of_getElem? hw)
        simp at hworker
    | @poll w f u | @contend w f u | @retry w f u | @wakeInPoll w f p u | @cloneInPoll w f p u
    | @ready w f p u | @unlock w f u | @dropWaker w f u | @unwind w f p u | @clone f u
    | @wake f u | @wakeFailed f u | @wakeByRef f u | @wakeByRefFailed f u | @drop f u =>
        exact u.underlying.elim
  · intro q hq
    obtain rfl := List.eq_of_mem_replicate hq
    simp [Fifo.items_empty]

end Kiruna.Tpc.Bin
