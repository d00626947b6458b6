import Kiruna.Sync.Executor
import Mathlib.Data.List.Nodup

/-!
# Identity and scheduling of the tasks of the executor

As long as the vector of slots and the active count stay inside 16 bits, a handle designates the
slot of the task it was made for, and from that the scheduling facts follow: a task that is ready
is not polled again, a task that is woken is polled after the wake, and `drain` ends only when all
tasks are ready. Once the 65537th task is spawned its handle is that of the first one.
-/

namespace Kiruna.Sync.Executor

open Lts (Free)

variable {F : Type*} {checked : Bool} {s t : Executor F} {a : ExecutorLabel F}
  {h : List (ExecutorLabel F)}

/-- A spawn takes place while the next slot number and the next active count fit 16 bits. -/
def SpawnFits (s : Executor F) : ExecutorLabel F → Prop
  | .spawn _ => s.tasks.length < 65536 ∧ s.numActive ≠ 65535
  | _ => True

instance : ∀ (s : Executor F) (a : ExecutorLabel F), Decidable (s.SpawnFits a)
  | s, .spawn _ =>
      inferInstanceAs (Decidable (s.tasks.length < 65536 ∧ s.numActive ≠ 65535))
  | _, .doSome | _, .drain | _, .dropExecutor | _, .recv _ | _, .recvEmpty | _, .skip _
  | _, .poll _ | _, .ready _ | _, .taken _ | _, .pending _ | _, .panicked _ | _, .dropReceiver
  | _, .wake _ | _, .wakePanicked _ => isTrue trivial

def occupied : Option F → ℕ
  | some _ => 1
  | none => 0

structure Inv (s : Executor F) : Prop where
  length_sent : s.sent.length = s.tasks.length
  length_le : s.tasks.length ≤ 65536
  designates : ∀ (k : ℕ) (f : F) (w : Handle), s.sent[k]? = some (f, w) →
    w.index.toNat = k ∧ (s.tasks[k]? = some (some f) ∨ s.tasks[k]? = some none)
  active : s.numActive.toNat = weight occupied s.tasks
  polling : ∀ m w, s.pc = .poll m w → ∃ f, s.slot w = some (some f)

theorem inv_new : Inv (new : Executor F) where
  length_sent := rfl
  length_le := by simp [new]
  designates := by simp [new]
  active := rfl
  polling := by simp [new]

theorem toNat_newHandle (hl : s.tasks.length < 65536) :
    s.newHandle.index.toNat = s.tasks.length := by
  simp only [newHandle, UInt16.toNat_ofNat']
  omega

theorem spawn_eq (checked : Bool) (f : F) (hn : s.numActive ≠ 65535) :
    s.spawn checked f = { s with
      tasks := s.tasks ++ [some f]
      numActive := s.numActive + 1
      channel := s.channel ++ [s.newHandle]
      sent := s.sent ++ [(f, s.newHandle)] } := by
  simp [spawn, increment, hn]

theorem decrement_eq_some {n k : UInt16} (hd : decrement checked n = some k) : k = n - 1 := by
  unfold decrement at hd
  split_ifs at hd
  exact (Option.some.inj hd).symm

theorem Inv.spawn (hi : Inv s) (f : F) (hpc : s.pc = .idle) (hl : s.tasks.length < 65536)
    (hn : s.numActive ≠ 65535) : Inv (s.spawn checked f) := by
  rw [spawn_eq checked f hn]
  refine ⟨?_, ?_, ?_, ?_, ?_⟩
  · simp [hi.length_sent]
  · simp only [List.length_append, List.length_singleton]
    omega
  · intro k g w hk
    rcases getElem?_append_cases hk with hk | ⟨rfl, he⟩
    · have hlt := (List.getElem?_eq_some_iff.mp hk).1
      rw [hi.length_sent] at hlt
      rw [List.getElem?_append_left hlt]
      exact hi.designates k g w hk
    · cases he
      rw [hi.length_sent]
      exact ⟨toNat_newHandle hl, .inl List.getElem?_concat_length⟩
  · have hlt : s.numActive.toNat < 65535 := by
      have hle := s.numActive.toNat_lt
      have hne : s.numActive.toNat ≠ 65535 := fun he => hn (UInt16.toNat_inj.mp he)
      omega
    simp only [weight_append, weight_cons, weight_nil, occupied, UInt16.toNat_add, ← hi.active]
    simp
    omega
  · simp [hpc]

theorem Inv.effect (hi : Inv s) (hok : s.SpawnFits a) (he : Effect checked s a t) : Inv t := by
  cases he with
  | spawn f hpc => exact hi.spawn f hpc hok.1 hok.2
  | recv hpc hc => exact ⟨hi.length_sent, hi.length_le, hi.designates, hi.active, by simp⟩
  | poll hpc hf =>
      refine ⟨hi.length_sent, hi.length_le, hi.designates, hi.active, ?_⟩
      intro m w hw
      obtain ⟨-, rfl⟩ : _ ∧ _ = w := by simpa using hw
      exact ⟨_, hf⟩
  | @ready m w n hpc hn =>
      obtain ⟨f, hf⟩ := hi.polling _ _ hpc
      refine ⟨?_, ?_, ?_, ?_, by simp⟩
      · simpa using hi.length_sent
      · simpa using hi.length_le
      · intro k g w' hk
        obtain ⟨hw', hslot⟩ := hi.designates k g w' hk
        refine ⟨hw', ?_⟩
        by_cases hkw : w.index.toNat = k
        · have hlt : k < s.tasks.length := hkw ▸ (List.getElem?_eq_some_iff.mp hf).1
          exact .inr (by simp [hkw, hlt])
        · simpa [List.getElem?_set_ne hkw] using hslot
      · have hw := weight_set (w := occupied) none hf
        simp only [occupied] at hw
        rw [decrement_eq_some hn]
        have ha := hi.active
        have hlt := s.numActive.toNat_lt
        simp only [UInt16.toNat_sub]
        simp
        omega
  | underflow hpc hn =>
      exact ⟨hi.length_sent, hi.length_le, hi.designates, hi.active,
        fun m' w hw => absurd hw (unwound_ne _ m' w).2.1⟩
  | wake hw hr => exact ⟨hi.length_sent, hi.length_le, hi.designates, hi.active, hi.polling⟩
  | move ha hfrom hto hd =>
      exact ⟨hi.length_sent, hi.length_le, hi.designates, hi.active,
        fun m w hw => absurd hw (hto m w).2⟩

theorem inv_of_run (hr : (system F checked).Run SpawnFits h s) : Inv s :=
  hr.invariant (fun _ _ _ hi hok hst => hi.effect hok (effect_of_step hst)) inv_new

/-- After every wake of `w` that the history holds, `w` was polled. -/
def PolledAfterWakes (h : List (ExecutorLabel F)) (w : Handle) : Prop :=
  ∀ l₁ l₂, h = l₁ ++ .wake w :: l₂ → .poll w ∈ l₁

theorem PolledAfterWakes.cons {w : Handle} (hp : PolledAfterWakes h w) (ha : a ≠ .wake w) :
    PolledAfterWakes (a :: h) w := by
  intro l₁ l₂ he
  cases l₁ with
  | nil => exact absurd (List.cons.inj he).1 ha
  | cons b l₁ => exact List.mem_cons_of_mem b (hp l₁ l₂ (List.cons.inj he).2)

theorem polledAfterWakes_poll (h : List (ExecutorLabel F)) (w : Handle) :
    PolledAfterWakes (.poll w :: h) w := by
  intro l₁ l₂ he
  cases l₁ with
  | nil => cases he
  | cons b l₁ =>
      rw [← (List.cons.inj he).1]
      exact List.mem_cons_self

/-- Polled since it was spawned and since each of its wakes. -/
def Attended (h : List (ExecutorLabel F)) (w : Handle) : Prop :=
  .poll w ∈ h ∧ PolledAfterWakes h w

/-- The handle is on its way to a poll. -/
def UnderWay (s : Executor F) (w : Handle) : Prop :=
  w ∈ s.channel ∨ ∃ m, s.pc = .wakeup m w

theorem handle_ext {w w' : Handle} (h : w.index.toNat = w'.index.toNat) : w = w' := by
  cases w
  cases w'
  simpa using UInt16.toNat_inj.mp h

theorem slot_spawn (f : F) {w : Handle} {o : Option F} (hs : s.slot w = some o) :
    (s.spawn checked f).slot w = some o := by
  have happ : (s.tasks ++ [some f])[w.index.toNat]? = some o := by
    rw [List.getElem?_append_left (List.getElem?_eq_some_iff.mp hs).1]
    exact hs
  unfold spawn
  split <;> exact happ

theorem slot_of_set_none {w w' : Handle} {f : F} (n : UInt16) (p : ExecutorPc)
    (hs : ({ s with numActive := n, tasks := s.tasks.set w.index.toNat none, pc := p } :
      Executor F).slot w' = some (some f)) : s.slot w' = some (some f) ∧ w ≠ w' := by
  by_cases he : w.index.toNat = w'.index.toNat
  · simp only [slot, he] at hs
    rw [List.getElem?_set_self'] at hs
    simp [Option.map_eq_some_iff] at hs
  · rw [slot, List.getElem?_set_ne he] at hs
    exact ⟨hs, fun hw => he (by rw [hw])⟩

theorem Attended.cons {w : Handle} (hp : Attended h w) (ha : a ≠ .wake w) : Attended (a :: h) w :=
  ⟨List.mem_cons_of_mem a hp.1, hp.2.cons ha⟩

/-- A step that neither wakes the task nor takes its handle off the way. -/
theorem attended_or_underWay_cons {w : Handle} (hw : Attended h w ∨ s.UnderWay w)
    (ha : a ≠ .wake w) (hc : w ∈ s.channel → w ∈ t.channel) (hpc : ∀ m, s.pc ≠ .wakeup m w) :
    Attended (a :: h) w ∨ t.UnderWay w := by
  rcases hw with hp | hm | ⟨m, hm⟩
  · exact .inl (hp.cons ha)
  · exact .inr (.inl (hc hm))
  · exact absurd hm (hpc m)

/-- An unfinished task is attended or its handle is on its way. -/
theorem attended_or_underWay (hr : (system F checked).Run SpawnFits h s) :
    ∀ w f, s.slot w = some (some f) → Attended h w ∨ s.UnderWay w := by
  refine hr.induct (P := fun h s => ∀ w f, s.slot w = some (some f) → Attended h w ∨ s.UnderWay w)
    (by simp [system, new, slot]) ?_
  intro h s a t hrun ih hok hst w f hw
  cases effect_of_step hst with
  | spawn g hpc =>
      rw [spawn_eq checked g hok.2] at hw ⊢
      rcases getElem?_append_cases hw with hold | ⟨hlen, -⟩
      · exact attended_or_underWay_cons (ih w f hold) (by simp) (List.mem_append_left _)
          (by simp [hpc])
      · obtain rfl : w = s.newHandle := by
          apply handle_ext
          rw [toNat_newHandle hok.1, hlen]
        exact .inr (.inl (by simp))
  | @recv m w' rest hpc hc =>
      rcases ih w f hw with hp | hm | ⟨m', hm'⟩
      · exact .inl (hp.cons (by simp))
      · rw [hc, List.mem_cons] at hm
        rcases hm with rfl | hm
        · exact .inr (.inr ⟨m, rfl⟩)
        · exact .inr (.inl hm)
      · simp [hpc] at hm'
  | @poll m w' g hpc hg =>
      by_cases he : w' = w
      · subst he
        exact .inl ⟨List.mem_cons_self, polledAfterWakes_poll h w'⟩
      · exact attended_or_underWay_cons (ih w f hw) (by simp) id (by simp [hpc, he])
  | ready hpc hn =>
      exact attended_or_underWay_cons (ih w f (slot_of_set_none _ _ hw).1) (by simp) id
        (by simp [hpc])
  | underflow hpc hn =>
      exact attended_or_underWay_cons (ih w f hw) (by simp) id (by simp [hpc])
  | @wake w' hw' hr =>
      by_cases he : w' = w
      · subst he
        exact .inr (.inl (by simp))
      · rcases ih w f hw with hp | hc | hm
        · exact .inl (hp.cons (by simpa using he))
        · exact .inr (.inl (List.mem_append_left _ hc))
        · exact .inr (.inr hm)
  | move ha hfrom hto hd =>
      refine attended_or_underWay_cons (ih w f hw) ?_ id fun m hm => hfrom m w f hm hw
      rintro rfl
      exact ha

theorem poll_mem_of_poll (hr : (system F checked).Run SpawnFits h s) :
    ∀ m w, s.pc = .poll m w → .poll w ∈ h := by
  refine hr.induct (P := fun h s => ∀ m w, s.pc = .poll m w → .poll w ∈ h)
    (by simp [system, new]) ?_
  intro h s a t hrun ih hok hst m w hpc'
  cases effect_of_step hst with
  | spawn g hpc =>
      rw [spawn_eq checked g hok.2] at hpc'
      simp [hpc] at hpc'
  | recv hpc hc => simp at hpc'
  | poll hpc hg =>
      obtain ⟨-, rfl⟩ : _ ∧ _ = w := by simpa using hpc'
      exact List.mem_cons_self
  | ready hpc hn => simp at hpc'
  | underflow hpc hn => exact absurd hpc' (unwound_ne _ m w).2.1
  | wake hw hr => exact List.mem_cons_of_mem _ (ih m w hpc')
  | move ha hfrom hto hd => exact absurd hpc' (hto m w).2

/-- The active count is positive while a task is polled. -/
theorem Inv.numActive_ne_zero (hi : Inv s) {m : Method} {w : Handle} (hpc : s.pc = .poll m w) :
    s.numActive ≠ 0 := by
  obtain ⟨f, hf⟩ := hi.polling m w hpc
  have hle := le_weight (w := occupied) hf
  have ha := hi.active
  intro hz
  rw [hz] at ha
  simp only [occupied, UInt16.toNat_zero] at ha hle
  omega

/-- A slot is empty exactly when its task has been ready. -/
theorem slot_none_iff_ready (hr : (system F checked).Run SpawnFits h s) :
    ∀ w, s.slot w = some none ↔ .ready w ∈ h := by
  refine hr.induct (P := fun h s => ∀ w, s.slot w = some none ↔ .ready w ∈ h)
    (by simp [system, new, slot]) ?_
  intro h s a t hrun ih hok hst w
  cases effect_of_step hst with
  | spawn g hpc =>
      constructor
      · intro hw
        rw [spawn_eq checked g hok.2] at hw
        rcases getElem?_append_cases hw with hold | ⟨-, he⟩
        · exact List.mem_cons_of_mem _ ((ih w).mp hold)
        · cases he
      · intro hw
        exact slot_spawn g ((ih w).mpr (by simpa using hw))
  | recv hpc hc => exact (ih w).trans (by simp)
  | poll hpc hg => exact (ih w).trans (by simp)
  | @ready m w' n hpc hn =>
      obtain ⟨f, hf⟩ := (inv_of_run hrun).polling m w' hpc
      have hlt := (List.getElem?_eq_some_iff.mp hf).1
      by_cases he : w' = w
      · subst he
        simp [slot, hlt]
      · have hne : w'.index.toNat ≠ w.index.toNat := fun hi => he (handle_ext hi)
        have hold := ih w
        simp only [slot] at hold ⊢
        rw [List.getElem?_set_ne hne, hold]
        simp [Ne.symm he]
  | underflow hpc hn => exact absurd hn ((inv_of_run hrun).numActive_ne_zero hpc)
  | wake hw hr => exact (ih w).trans (by simp)
  | move ha hfrom hto hd =>
      refine (ih w).trans ⟨List.mem_cons_of_mem _, fun hm => ?_⟩
      rcases List.mem_cons.mp hm with rfl | hm
      · exact absurd ha (by simp [Moves])
      · exact hm

/-- A task that was ready was polled, and it is not polled again. -/
theorem poll_before_ready (hr : (system F checked).Run SpawnFits h s) :
    (∀ w, .ready w ∈ h → .poll w ∈ h) ∧
      ∀ l₁ l₂ w, h = l₁ ++ .ready w :: l₂ → .poll w ∉ l₁ := by
  refine hr.induct (P := fun h _ => (∀ w, .ready w ∈ h → .poll w ∈ h) ∧
    ∀ l₁ l₂ w, h = l₁ ++ .ready w :: l₂ → .poll w ∉ l₁) (by simp) ?_
  intro h s a t hrun ih hok hst
  constructor
  · intro w hw
    rcases List.mem_cons.mp hw with rfl | hw
    · cases effect_of_step hst with
      | ready hpc hn => exact List.mem_cons_of_mem _ (poll_mem_of_poll hrun _ _ hpc)
      | underflow hpc hn => exact List.mem_cons_of_mem _ (poll_mem_of_poll hrun _ _ hpc)
      | move ha hfrom hto hd => exact absurd ha (by simp [Moves])
    · exact List.mem_cons_of_mem _ (ih.1 w hw)
  · intro l₁ l₂ w he hp
    cases l₁ with
    | nil => simp at hp
    | cons b l₁ =>
        obtain ⟨rfl, rfl⟩ := List.cons.inj he
        rcases List.mem_cons.mp hp with rfl | hp
        · have hnone := (slot_none_iff_ready hrun w).mpr (by simp)
          cases effect_of_step hst with
          | poll hpc hf =>
              rw [hnone] at hf
              cases hf
          | move ha hfrom hto hd => exact ha
        · exact ih.2 l₁ l₂ w rfl hp

theorem numActive_of_returns (hr : (system F checked).Run SpawnFits h s) :
    s.pc.Returns → s.numActive = 0 := by
  refine hr.invariant (P := fun s => s.pc.Returns → s.numActive = 0) ?_
    (by simp [system, new, ExecutorPc.Returns])
  intro s a t ih hok hst hpc'
  cases effect_of_step hst with
  | spawn g hpc =>
      rw [spawn_eq checked g hok.2] at hpc'
      simp [hpc, ExecutorPc.Returns] at hpc'
  | recv hpc hc | poll hpc hg | ready hpc hn => simp [ExecutorPc.Returns] at hpc'
  | underflow hpc hn => exact absurd hpc' (unwound_ne _ .drain ⟨0⟩).2.2
  | wake hw hr => exact ih hpc'
  | move ha hfrom hto hd => exact (hd hpc').elim ih id

/-- `do_some` returns from an empty receive. -/
theorem channel_of_recvEmpty {ok : Executor F → ExecutorLabel F → Prop}
    (hr : (system F checked).Run ok h s) (hh : h.head? = some .recvEmpty) :
    s.channel = [] ∧ s.pc = .idle := by
  cases hr with
  | refl => simp at hh
  | @snoc h t _ a _ _ hst =>
      obtain rfl : a = .recvEmpty := by simpa using hh
      simp only [system, step] at hst
      split_ifs at hst with hc
      cases hst
      exact ⟨hc.2, rfl⟩

/-- At the return of `do_some`, and in a blocked receive of `drain`, every unfinished task is
attended. -/
theorem attended_of_channel_nil (hr : (system F checked).Run SpawnFits h s)
    (hc : s.channel = []) (hpc : ∀ m w, s.pc ≠ .wakeup m w) :
    ∀ w f, s.slot w = some (some f) → Attended h w := by
  intro w f hw
  rcases attended_or_underWay hr w f hw with hp | hm | ⟨m, hm⟩
  · exact hp
  · simp [hc] at hm
  · exact absurd hm (hpc m w)

/-- A spawned task was polled, or its handle is on its way. -/
theorem poll_or_underWay (hr : (system F checked).Run SpawnFits h s) {f : F} {w : Handle}
    (hw : (f, w) ∈ s.sent) : .poll w ∈ h ∨ s.UnderWay w := by
  obtain ⟨k, hk⟩ := List.mem_iff_getElem?.mp hw
  obtain ⟨rfl, hs⟩ := (inv_of_run hr).designates k f w hk
  rcases hs with hs | hs
  · exact (attended_or_underWay hr w f hs).imp And.left id
  · exact .inl ((poll_before_ready hr).1 w ((slot_none_iff_ready hr w).mp hs))

/-- What a handle is for: the `k`th spawned task sits in slot `k` until it is ready, and its handle
is the number of that slot. A task that has not been polled has its handle in the channel, or
`do_a_wakeup` has just received it; none is left at the return of `do_some`. -/
structure TaskIdentity (h : List (ExecutorLabel F)) (s : Executor F) : Prop where
  sent_all : s.sent.length = s.tasks.length
  designates : ∀ (k : ℕ) (f : F) (w : Handle), s.sent[k]? = some (f, w) →
    w.index.toNat = k ∧ (s.slot w = some (some f) ∨ s.slot w = some none ∧ .ready w ∈ h)
  distinct : (s.sent.map Prod.snd).Nodup
  active : s.numActive.toNat = weight occupied s.tasks
  waiting : ∀ f w, (f, w) ∈ s.sent → .poll w ∈ h ∨ s.UnderWay w
  polled : h.head? = some .recvEmpty → ∀ f w, (f, w) ∈ s.sent → .poll w ∈ h

theorem Inv.nodup_sent (hi : Inv s) : (s.sent.map Prod.snd).Nodup := by
  rw [List.nodup_iff_getElem?_ne_getElem?]
  intro i j hij hj he
  rw [List.length_map] at hj
  obtain ⟨⟨f, w⟩, hf⟩ : ∃ p, s.sent[i]? = some p := ⟨_, List.getElem?_eq_getElem (hij.trans hj)⟩
  obtain ⟨⟨g, v⟩, hg⟩ : ∃ p, s.sent[j]? = some p := ⟨_, List.getElem?_eq_getElem hj⟩
  obtain rfl : w = v := by simpa [hf, hg] using he
  have hwi := (hi.designates i f w hf).1
  have hwj := (hi.designates j g w hg).1
  omega

/-- Handles identify tasks in a run whose spawns all fit the 16-bit numbers. -/
theorem taskIdentity_of_spawnFits (hr : (system F checked).Run SpawnFits h s) :
    TaskIdentity h s where
  sent_all := (inv_of_run hr).length_sent
  designates := by
    intro k f w hk
    obtain ⟨rfl, hs⟩ := (inv_of_run hr).designates k f w hk
    exact ⟨rfl, hs.imp id fun hn => ⟨hn, (slot_none_iff_ready hr w).mp hn⟩⟩
  distinct := (inv_of_run hr).nodup_sent
  active := (inv_of_run hr).active
  waiting := fun _ _ hw => poll_or_underWay hr hw
  polled := by
    intro hh f w hw
    obtain ⟨hc, hpc⟩ := channel_of_recvEmpty hr hh
    rcases poll_or_underWay hr hw with hp | hm | ⟨m, hm⟩
    · exact hp
    · simp [hc] at hm
    · simp [hpc] at hm

/-- The steps of one task from its spawn to the return of the next `do_some`. -/
def spawnAndFinish (k : ℕ) : List (ExecutorLabel Unit) :=
  let w : Handle := ⟨UInt16.ofNat k⟩
  [.spawn (), .doSome, .recv w, .poll w, .ready w, .taken w, .recvEmpty]

theorem taskIdentity_one_task :
    TaskIdentity (spawnAndFinish 0).reverse ⟨[], [none], 0, .idle, [⟨0⟩], [((), ⟨0⟩)]⟩ :=
  taskIdentity_of_spawnFits (show (system Unit true).Run SpawnFits _ _ from
    Lts.path_of_exec _ (by decide))

/-- An executor whose tasks so far were spawned and finished one after another. -/
structure AllFinished (n : ℕ) (s : Executor Unit) : Prop where
  channel : s.channel = []
  tasks : s.tasks = List.replicate n none
  numActive : s.numActive = 0
  pc : s.pc = .idle
  length_sent : s.sent.length = n

theorem exec_spawnAndFinish (checked : Bool) {n : ℕ} {s : Executor Unit} (hs : AllFinished n s)
    (hn : n < 65536) :
    ∃ t, (system Unit checked).exec Free s (spawnAndFinish n) = some t ∧ AllFinished (n + 1) t := by
  obtain ⟨channel, tasks, numActive, pc, wakers, sent⟩ := s
  obtain ⟨rfl, rfl, rfl, rfl, hl⟩ := hs
  have hmod : (UInt16.ofNat n).toNat = n := by
    rw [UInt16.toNat_ofNat']
    omega
  refine ⟨⟨[], List.replicate (n + 1) none, 0, .idle, wakers ++ [⟨UInt16.ofNat n⟩],
    sent ++ [((), ⟨UInt16.ofNat n⟩)]⟩, ?_, rfl, rfl, rfl, rfl, by simpa using hl⟩
  have hset : (List.replicate n none ++ [some ()]).set n none =
      (List.replicate (n + 1) none : List (Option Unit)) := by
    rw [List.set_append_right _ _ (by simp), List.replicate_succ']
    simp
  simp [Lts.exec, Free, system, spawnAndFinish, step, spawn, increment, newHandle, slot,
    hmod, decrement, afterWakeup, hset]

theorem exists_allFinished (checked : Bool) (n : ℕ) (hn : n ≤ 65536) :
    ∃ s, (system Unit checked).Reachable s ∧ AllFinished n s := by
  induction n with
  | zero => exact ⟨new, ⟨[], .refl⟩, rfl, rfl, rfl, rfl, rfl⟩
  | succ n ih =>
      obtain ⟨s, ⟨h, hs⟩, hf⟩ := ih (by omega)
      obtain ⟨t, ht, hf'⟩ := exec_spawnAndFinish checked hf (by omega)
      exact ⟨t, ⟨_, hs.trans (Lts.path_of_exec _ ht)⟩, hf'⟩

/-- After 65536 finished tasks the next one is given the handle of the first. -/
theorem exists_handle_of_another_task :
    ¬ ∀ checked h (s : Executor Unit), (system Unit checked).Run Free h s → TaskIdentity h s := by
  intro hall
  obtain ⟨s, ⟨h, hs⟩, hf⟩ := exists_allFinished true 65536 le_rfl
  have hstep : (system Unit true).step s (.spawn ()) = some (s.spawn true ()) := by
    simp [system, step, hf.pc]
  have hn : s.numActive ≠ 65535 := by
    rw [hf.numActive]
    decide
  have hid := hall true _ _ (hs.snoc trivial hstep)
  rw [spawn_eq true () hn] at hid
  have hk := (hid.designates 65536 () s.newHandle (by simp [← hf.length_sent])).1
  have hz : s.newHandle.index.toNat = 0 := by
    simp only [newHandle, hf.tasks, List.length_replicate]
    decide
  omega

/-! ## Scheduling in runs of at most 65535 spawns -/

def spawns (h : List (ExecutorLabel F)) : ℕ :=
  weight (fun | .spawn _ => 1 | _ => 0) h

theorem length_tasks_eq_spawns (hr : (system F checked).Run SpawnFits h s) :
    s.tasks.length = spawns h := by
  refine hr.induct (P := fun h s => s.tasks.length = spawns h) rfl ?_
  intro h s a t hrun ih hok hst
  unfold spawns at *
  cases effect_of_step hst with
  | spawn f hpc =>
      rw [spawn_eq checked f hok.2, weight_cons, ← ih]
      simp [Nat.add_comm]
  | recv hpc hc => simpa using ih
  | poll hpc hf => simpa using ih
  | ready hpc hn => simpa using ih
  | underflow hpc hn => simpa using ih
  | wake hw hr => simpa using ih
  | move ha hfrom hto hd =>
      rw [weight_cons]
      cases a <;> simp_all [Moves]

theorem Inv.numActive_le (hi : Inv s) : s.numActive.toNat ≤ s.tasks.length := by
  rw [hi.active]
  exact weight_le_length fun o => by cases o <;> simp [occupied]

/-- With at most 65535 spawns, every one of them fits. -/
theorem run_spawnFits (hr : (system F checked).Run Free h s) (hs : spawns h ≤ 65535) :
    (system F checked).Run SpawnFits h s := by
  induction hr with
  | refl => exact .refl
  | @snoc h t u a hp _ hst ih =>
      have hle : spawns h ≤ spawns (a :: h) := by
        unfold spawns
        rw [weight_cons]
        omega
      have hrun := ih (hle.trans hs)
      refine hrun.snoc ?_ hst
      cases a with
      | spawn f =>
          have hl := length_tasks_eq_spawns hrun
          have hn := (inv_of_run hrun).numActive_le
          have hlt : t.tasks.length < 65535 := by
            unfold spawns at hs hl
            simp only [weight_cons] at hs
            omega
          refine ⟨by omega, fun he => ?_⟩
          rw [he] at hn
          exact absurd (hn.trans_lt hlt) (by decide)
      | _ => trivial

/-- The scheduling promises of the executor, of a history and the state it leads to. The active
count is decremented at the end of a poll. -/
structure Scheduled (h : List (ExecutorLabel F)) (s : Executor F) : Prop where
  no_poll_after_ready : ∀ l₁ l₂ w, h = l₁ ++ .ready w :: l₂ → .poll w ∉ l₁
  active : s.numActive.toNat = weight occupied s.tasks
  no_underflow : ∀ m w, s.pc = .poll m w → s.numActive ≠ 0
  do_some_returned : h.head? = some .recvEmpty →
    ∀ w f, s.slot w = some (some f) → Attended h w
  drain_returned : s.pc.Returns → ∀ f w, (f, w) ∈ s.sent → .ready w ∈ h
  drain_blocked : s.pc = .recv .drain → s.channel = [] →
    ∀ w f, s.slot w = some (some f) → Attended h w

theorem scheduled_of_run (hr : (system F checked).Run Free h s) (hs : spawns h ≤ 65535) :
    Scheduled h s := by
  have hfit := run_spawnFits hr hs
  have hi := inv_of_run hfit
  refine ⟨(poll_before_ready hfit).2, hi.active, fun m w hpc => hi.numActive_ne_zero hpc, ?_, ?_,
    fun hpc hc => attended_of_channel_nil hfit hc (by simp [hpc])⟩
  · intro hh
    obtain ⟨hc, hpc⟩ := channel_of_recvEmpty hfit hh
    exact attended_of_channel_nil hfit hc (by simp [hpc])
  · intro hpc f w hw
    obtain ⟨k, hk⟩ := List.mem_iff_getElem?.mp hw
    obtain ⟨rfl, hslot⟩ := hi.designates k f w hk
    rcases hslot with hslot | hslot
    · have hle := le_weight (w := occupied) hslot
      have ha := hi.active
      rw [numActive_of_returns hfit hpc] at ha
      simp only [occupied, UInt16.toNat_zero] at ha hle
      omega
    · exact (slot_none_iff_ready hfit w).mp hslot

/-- A task that is woken during its own poll, and drained. -/
def wokenDuringPoll : List (ExecutorLabel Unit) :=
  [.spawn (), .drain, .recv ⟨0⟩, .poll ⟨0⟩, .wake ⟨0⟩, .pending ⟨0⟩, .recv ⟨0⟩, .poll ⟨0⟩,
    .ready ⟨0⟩, .taken ⟨0⟩, .dropReceiver]

theorem scheduled_wokenDuringPoll :
    Scheduled wokenDuringPoll.reverse
      ⟨[], [none], 0, .drained, [⟨0⟩, ⟨0⟩], [((), ⟨0⟩)]⟩ :=
  scheduled_of_run (show (system Unit true).Run Free _ _ from Lts.path_of_exec _ (by decide))
    (by decide)

end Kiruna.Sync.Executor
