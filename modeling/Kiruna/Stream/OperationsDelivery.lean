import Kiruna.Stream.OperationsIsolation
import Kiruna.Stream.OverlappedRefinement
import Kiruna.Transition.Simulation
import Kiruna.Stream.Write

/-!
# What a process delivers

When no thread has anything left to do, an operation that has been polled has its result, and its
last waker was called; or its closure still lies in the channel. The releases that the semaphore
refused count these.
-/

namespace Kiruna.Stream

variable {Payload Args Ok Failure Os Waker : Type*} {P : PayloadTrait Payload Args Ok Failure Os}

namespace Overlapped

/-- An operation that has been polled and has no result. -/
def starving {R : Type*} (s : Overlapped Payload Args R Waker) : ℕ :=
  match s.shared, s.readied with
  | some _, [] => 1
  | _, _ => 0

/-- The operation has its result, and the task that waits for it has been woken or has taken it. -/
def Served (P : PayloadTrait Payload Args Ok Failure Os) (payload : Payload)
    (s : Overlapped Payload Args (Except Failure Ok) Waker) : Prop :=
  ∃ r, s.readied = [r] ∧ Resolved P s.handle 0 payload r s.completed ∧
    (s.returned = [r] ∨ ∃ w, s.lastWaker = some w ∧ s.woken = [w])

variable {handle : Handle} {payload : Payload}
  {s : Overlapped Payload Args (Except Failure Ok) Waker}

/-- Without a callback and without an outstanding call, a result is missing only while the closure
waits. -/
theorem Inv.starving_eq (h : Inv P handle payload s) (hw : s.pool.worker = .idle)
    (hc : s.pool.calls = []) : s.starving = s.pool.queue.length := by
  cases h with
  | unpolled => rfl
  | polled _ hphase =>
      cases hphase with
      | queued | freed => rfl
      | outstanding => cases hc
      | _ => cases hw

theorem Inv.served (h : Inv P handle payload s) (hw : s.pool.worker = .idle)
    (hc : s.pool.calls = []) (hshared : s.shared ≠ none) (hs : s.starving = 0) :
    s.Served P payload := by
  cases h with
  | unpolled => exact absurd rfl hshared
  | polled _ hphase hanswer =>
      cases hphase with
      | queued => cases hs
      | outstanding => cases hc
      | freed hr =>
          refine ⟨_, rfl, hr, ?_⟩
          cases hanswer with
          | stored => exact .inr ⟨_, rfl, rfl⟩
          | taken => exact .inl rfl
      | _ => cases hw

end Overlapped

namespace Operations

variable {h : List (OperationsLabel Payload Waker Os)}
  {s t : Operations Payload Args (Except Failure Ok) Waker}

/-- The releases of a history that the full semaphore refused. -/
def refused (h : List (OperationsLabel Payload Waker Os)) : ℕ :=
  weight (fun | .release _ false => 1 | _ => 0) h

theorem refused_cons (a : OperationsLabel Payload Waker Os)
    (h : List (OperationsLabel Payload Waker Os)) : refused (a :: h) = refused [a] + refused h :=
  rfl

/-- Nobody has anything left to do: no thread is inside `Threadpool::send`, and the worker thread
waits at a zero count, without an outstanding call. -/
structure AtRest {R : Type*} (s : Operations Payload Args R Waker) : Prop where
  sent : ∀ pc ∈ s.threadpool.senders, pc = .returned
  count : s.threadpool.semaphore.count = 0
  waiting : s.threadpool.worker = .waiting
  worker : s.pool.worker = .idle
  calls : s.pool.calls = []

theorem threadpool_called {i : ℕ} (u : Operation Payload Args (Except Failure Ok) Waker)
    (f : Overlapped Payload Args (Except Failure Ok) Waker) :
    (s.called i u f).threadpool = s.threadpool ∨
      ∃ c, s.threadpool.step (.addTask c) = some (s.called i u f).threadpool := by
  unfold called
  split
  · exact .inl rfl
  · exact .inr ⟨(i, _), rfl⟩

/-- What a step of the process is to the threadpool. -/
theorem threadpool_of_step {a : OperationsLabel Payload Waker Os} (h : s.step P a = some t) :
    t.threadpool = s.threadpool ∧ refused [a] = 0 ∨
      ∃ b, s.threadpool.step b = some t.threadpool ∧ Threadpool.refused [b] = refused [a] := by
  have hpool {b : ThreadpoolLabel (ℕ × Child Payload)} (hb : s.threadpoolStep b = some t) :
      s.threadpool.step b = some t.threadpool := by
    obtain ⟨tp, htp, rfl⟩ := Option.map_eq_some_iff.mp hb
    exact htp
  cases a with
  | new handle payload =>
      cases h
      exact .inl ⟨rfl, rfl⟩
  | poll i w | dropParent i =>
      simp only [step] at h
      split at h
      · cases h
      · split_ifs at h
        obtain ⟨f, -, rfl⟩ := Option.map_eq_some_iff.mp h
        rcases threadpool_called (s := s) (i := i) _ f with heq | ⟨c, hc⟩
        · exact .inl ⟨heq, rfl⟩
        · exact .inr ⟨_, hc, rfl⟩
  | push k => exact .inr ⟨.push k, hpool h, rfl⟩
  | release k granted => exact .inr ⟨.release k granted, hpool h, by cases granted <;> rfl⟩
  | beginThread => exact .inr ⟨.beginThread, hpool h, rfl⟩
  | waitObject =>
      simp only [step] at h
      split at h
      · exact .inr ⟨.waitObject, hpool h, rfl⟩
      · cases h
  | alerted =>
      simp only [step] at h
      split at h
      · exact .inr ⟨.alerted, hpool h, rfl⟩
      · cases h
  | closureReturned =>
      simp only [step] at h
      split at h
      · exact .inr ⟨.closureReturned, hpool h, rfl⟩
      · cases h
  | recv =>
      obtain ⟨tp, htp, hrec⟩ := Option.bind_eq_some_iff.mp h
      refine .inr ⟨.recv, ?_, rfl⟩
      simp only [received] at hrec
      split at hrec <;> cases hrec
      exact htp
  | beginOp os | resumeOp os | drop =>
      simp only [step] at h
      split at h <;> cases h
      exact .inl ⟨rfl, rfl⟩
  | complete n e b =>
      simp only [step] at h
      split at h
      · simp only [completion] at h
        split at h
        · cases h
          exact .inl ⟨rfl, rfl⟩
        · obtain ⟨u, -, rfl⟩ := Option.map_eq_some_iff.mp h
          exact .inl ⟨rfl, rfl⟩
      · cases h
  | ready =>
      simp only [step] at h
      split at h
      · simp only [ready] at h
        split at h
        · cases h
          exact .inl ⟨rfl, rfl⟩
        · obtain ⟨u, -, hu⟩ := Option.bind_eq_some_iff.mp h
          obtain ⟨shared, -, rfl⟩ := Option.map_eq_some_iff.mp hu
          exact .inl ⟨rfl, rfl⟩
      · cases h

/-- The threadpool by itself has a run, with the same refused releases. -/
theorem threadpool_run {ok : Operations Payload Args (Except Failure Ok) Waker →
      OperationsLabel Payload Waker Os → Prop} (hr : (system P).Run ok h s) :
    ∃ h', Threadpool.system.Run Lts.Free h' s.threadpool ∧ Threadpool.refused h' = refused h := by
  refine hr.map threadpool (R := fun h h' => Threadpool.refused h' = refused h) rfl ?_
  intro h s a t hr hok hst
  rcases threadpool_of_step hst with ⟨heq, hz⟩ | ⟨b, hb, hz⟩
  · refine ⟨[], heq ▸ .refl, fun h₁ hh => ?_⟩
    rw [List.nil_append, hh, refused_cons, hz, Nat.zero_add]
  · refine ⟨[b], .single trivial hb, fun h₁ hh => ?_⟩
    rw [refused_cons, ← hz, ← hh]
    rfl

/-- What every run of a process keeps: no callback finds a box in another state than it relies on,
and each operation is where the steps that it has made by itself lead. -/
theorem separate_of_run (hP : P.Oblivious) (hr : (system P).Run PollsBeforeReady h s) :
    s.pool.fault = false ∧ ∀ i u, s.ops[i]? = some u →
      (Overlapped.system P u.front.handle u.payload).Run Overlapped.PollsBeforeReady
        (history P h i) (s.alone i u) :=
  ⟨(isolated_of_run hP hr).linked.fault, (isolated_of_run hP hr).apart.run⟩

/-- At rest the refused releases count the operations that wait for ever; every other one that has
been polled has been served. -/
theorem starving_of_rest (hP : P.Oblivious) (hr : (system P).Run PollsBeforeReady h s)
    (hrest : s.AtRest) :
    weight (fun u => u.front.starving) s.ops = refused h ∧
      ∀ i u, s.ops[i]? = some u → u.front.shared ≠ none → u.front.starving = 0 →
        (s.alone i u).Served P u.payload := by
  have hs := isolated_of_run hP hr
  have hidle (i : ℕ) (u : Operation Payload Args (Except Failure Ok) Waker) :
      (s.alone i u).pool.worker = .idle := by
    simp [alone, Pool.part, hrest.worker]
  have hcalls (i : ℕ) (u : Operation Payload Args (Except Failure Ok) Waker) :
      (s.alone i u).pool.calls = [] := by
    simp [alone, Pool.part, hrest.calls]
  refine ⟨?_, fun i u hu hshared hstarving =>
    (hs.apart.inv hu).served (hidle i u) (hcalls i u) hshared hstarving⟩
  have hsent : s.threadpool.senders.filterMap SendPc.closure? = [] := by
    rw [List.filterMap_eq_nil_iff]
    intro pc hpc
    rw [hrest.sent pc hpc]
    rfl
  have hquiet : s.threadpool.Quiet := by
    refine ⟨hrest.count, hrest.waiting, fun pc hpc => ?_⟩
    rw [hrest.sent pc hpc]
    simp
  obtain ⟨h', hr', hrefused⟩ := threadpool_run hr
  have hqueue (i : Fin s.ops.length) : s.ops[i].front.starving =
      (s.threadpool.closures.filterMap (closureOf i)).length :=
    (hs.apart.inv (List.getElem?_eq_getElem i.isLt)).starving_eq (hidle i _) (hcalls i _)
  calc weight (fun u => u.front.starving) s.ops
      = ∑ i : Fin s.ops.length, s.ops[i].front.starving :=
        (Fin.sum_univ_fun_getElem s.ops fun u => u.front.starving).symm
    _ = ∑ i : Fin s.ops.length, (s.threadpool.closures.filterMap (closureOf i)).length :=
        Finset.sum_congr rfl fun i _ => hqueue i
    _ = s.threadpool.closures.length :=
        sum_length_filterMap Prod.fst Prod.snd hs.linked.closures
    _ = s.threadpool.channel.items.length := by
        rw [Threadpool.closures, hsent, List.append_nil]
    _ = Threadpool.refused h' := hquiet.length_eq_refused hr'
    _ = refused h := hrefused

end Operations

section Mixed

variable {Payload' Args' Ok' Failure' Os' R R' : Type*}

def Poll.map (f : R → R') : Poll R → Poll R'
  | .ready r => .ready (f r)
  | .pending => .pending

/-- A result of one kind of payload as a result of several kinds. -/
def OpResult.into (f : Payload → Payload') (g : Args → Args') (r : R → R')
    (o : OpResult Payload Args R) : OpResult Payload' Args' R' :=
  ⟨f o.payload, o.poll.map r, o.calls.map (OsCall.map g)⟩

theorem OpResult.Honours.into {o : OpResult Payload Args R} {hEvent : Handle}
    (h : o.Honours hEvent) (f : Payload → Payload') (g : Args → Args') (r : R → R') :
    (o.into f g r).Honours hEvent := by
  rcases honours_cases h with ⟨p, args, rfl⟩ | ⟨p, x, rfl⟩
  · exact ⟨g args, rfl⟩
  · rfl

theorem OpResult.into_moved (o : OpResult Payload Args R) (raw : Handle) (f : Payload → Payload')
    (g : Args → Args') (r : R → R') : (o.moved raw).into f g r = (o.into f g r).moved raw := by
  simp [into, moved, OsCall.map]

/-- The payloads of a process that has operations of two kinds. -/
def PayloadTrait.sum (P : PayloadTrait Payload Args Ok Failure Os)
    (Q : PayloadTrait Payload' Args' Ok' Failure' Os') :
    PayloadTrait (Payload ⊕ Payload') (Args ⊕ Args') (Ok ⊕ Ok') (Failure ⊕ Failure')
      (Os × Os') where
  beginOp p handle hEvent os :=
    match p with
    | .inl p => (P.beginOp p handle hEvent os.1).into .inl .inl
        fun r => (r.map .inl).mapError .inl
    | .inr p => (Q.beginOp p handle hEvent os.2).into .inr .inr
        fun r => (r.map .inr).mapError .inr
  resumeOp p errorCode bytesTransferred handle hEvent os :=
    match p with
    | .inl p => (P.resumeOp p errorCode bytesTransferred handle hEvent os.1).into .inl .inl
        fun r => (r.map .inl).mapError .inl
    | .inr p => (Q.resumeOp p errorCode bytesTransferred handle hEvent os.2).into .inr .inr
        fun r => (r.map .inr).mapError .inr
  beginOp_honours p handle hEvent os := by
    cases p with
    | inl p => exact (P.beginOp_honours p handle hEvent os.1).into _ _ _
    | inr p => exact (Q.beginOp_honours p handle hEvent os.2).into _ _ _
  resumeOp_honours p e b handle hEvent os := by
    cases p with
    | inl p => exact (P.resumeOp_honours p e b handle hEvent os.1).into _ _ _
    | inr p => exact (Q.resumeOp_honours p e b handle hEvent os.2).into _ _ _

theorem PayloadTrait.Oblivious.sum {Q : PayloadTrait Payload' Args' Ok' Failure' Os'}
    (hP : P.Oblivious) (hQ : Q.Oblivious) : (P.sum Q).Oblivious := by
  refine ⟨fun p handle hEvent os => ?_, fun p e b handle hEvent os => ?_⟩
  · cases p with
    | inl p => simp only [PayloadTrait.sum, hP.beginOp p handle hEvent, OpResult.into_moved]
    | inr p => simp only [PayloadTrait.sum, hQ.beginOp p handle hEvent, OpResult.into_moved]
  · cases p with
    | inl p => simp only [PayloadTrait.sum, hP.resumeOp p e b handle hEvent, OpResult.into_moved]
    | inr p => simp only [PayloadTrait.sum, hQ.resumeOp p e b handle hEvent, OpResult.into_moved]

theorem ReadChild.oblivious : ReadChild.payloadTrait.Oblivious := by
  have himpl (p : Buffer) (handle hEvent : Handle) (os : ReadOs) :
      ReadChild.readImpl p handle 0 os = (ReadChild.readImpl p handle hEvent os).moved 0 := by
    obtain ⟨lastError, memory⟩ := os
    cases lastError <;> rfl
  refine ⟨himpl, fun p e b handle hEvent os => ?_⟩
  simp only [ReadChild.payloadTrait]
  split_ifs
  · rfl
  · exact himpl _ _ _ _

theorem WriteOp.oblivious {Slice : Type*} [AsSlice Slice] :
    (WriteOp.payloadTrait : PayloadTrait (WriteOp Slice) _ _ _ _).Oblivious := by
  refine ⟨fun p handle hEvent os => ?_, fun p e b handle hEvent os => ?_⟩
  · cases os <;> rfl
  · simp only [WriteOp.payloadTrait, WriteOp.resumeOp]
    split_ifs <;> rfl

end Mixed

namespace Operations

instance {R : Type*} : ∀ (s : Operations Payload Args R Waker)
    (a : OperationsLabel Payload Waker Os), Decidable (PollsBeforeReady s a)
  | s, .poll i _ =>
      decidable_of_iff (∀ u ∈ s.ops[i]?, u.front.returned.isEmpty = true) (by
        simp only [List.isEmpty_iff, PollsBeforeReady])
  | _, .new _ _ | _, .dropParent _ | _, .push _ | _, .release _ _ | _, .beginThread
  | _, .waitObject | _, .alerted | _, .recv | _, .beginOp _ | _, .complete _ _ _
  | _, .resumeOp _ | _, .ready | _, .drop | _, .closureReturned => isTrue trivial

/-- Reads and writes. -/
abbrev files : PayloadTrait (Buffer ⊕ WriteOp BoxedSlice) (ReadFileEx ⊕ WriteFileEx)
    (Buffer ⊕ Unit) ((OSError × Buffer) ⊕ OSError) (ReadOs × Option UInt32) :=
  ReadChild.payloadTrait.sum WriteOp.payloadTrait

/-- A read and a write of a process. The write, which was made second, is received first. -/
def writeFirst : List (OperationsLabel (Buffer ⊕ WriteOp BoxedSlice) ℕ (ReadOs × Option UInt32)) :=
  [.new 7 (.inl ⟨[]⟩), .new 8 (.inr ⟨⟨[104]⟩⟩), .poll 0 1, .poll 1 2, .push 1, .push 0,
    .release 0 true, .release 1 true, .beginThread, .waitObject, .recv,
    .beginOp (⟨none, fun _ => 0⟩, none), .closureReturned, .waitObject, .recv,
    .beginOp (⟨none, fun _ => 0⟩, none), .closureReturned, .complete 0 0 1,
    .resumeOp (⟨none, fun _ => 0⟩, none), .ready, .drop, .poll 1 2]

def afterWriteFirst : Operations (Buffer ⊕ WriteOp BoxedSlice) (ReadFileEx ⊕ WriteFileEx)
    (Except ((OSError × Buffer) ⊕ OSError) (Buffer ⊕ Unit)) ℕ where
  ops := [
    ⟨.inl ⟨[]⟩, ⟨7, .polled, some ⟨1, .poll .pending⟩, .new, some 1, [], [], [], []⟩, some 0⟩,
    ⟨.inr ⟨⟨[104]⟩⟩, ⟨8, .polled, some ⟨2, .gone⟩, .new, some 2, [2], [.ok (.inr ())],
      [.ok (.inr ())], [(.inr ⟨8, [104], 1, 0, 0⟩, 0, 1)]⟩, some 1⟩]
  threadpool := ⟨.new, .empty, [.returned, .returned], .waiting⟩
  owners := [1, 0]
  pool := ⟨[], [.freed, .raw ⟨7, .inl ⟨[]⟩⟩], [⟨1, .inl ⟨7, 0, 255⟩⟩], .idle, false⟩

/-- The read, by itself, has its box at address 0 and waits for its completion. -/
theorem separate_writeFirst : afterWriteFirst.pool.fault = false ∧
    ∀ i u, afterWriteFirst.ops[i]? = some u →
      (Overlapped.system files u.front.handle u.payload).Run Overlapped.PollsBeforeReady
        (history files writeFirst.reverse i) (afterWriteFirst.alone i u) :=
  separate_of_run (ReadChild.oblivious.sum WriteOp.oblivious)
    (Lts.path_of_exec writeFirst rfl)

/-- Three reads of a file that cannot be read, polled before the worker thread begins. -/
def threeReads : List (OperationsLabel Buffer ℕ ReadOs) :=
  [.new 7 ⟨[]⟩, .new 7 ⟨[]⟩, .new 7 ⟨[]⟩, .poll 0 1, .poll 1 2, .poll 2 3,
    .push 0, .push 1, .push 2, .release 0 true, .release 1 true, .release 2 false,
    .beginThread, .waitObject, .recv, .beginOp ⟨some 5, fun _ => 0⟩, .ready, .drop,
    .closureReturned, .waitObject, .recv, .beginOp ⟨some 5, fun _ => 0⟩, .ready, .drop,
    .closureReturned]

def afterThreeReads : Operations Buffer ReadFileEx (Except (OSError × Buffer) Buffer) ℕ where
  ops := [
    ⟨⟨[]⟩, ⟨7, .polled, some ⟨1, .poll (.ready (.error (⟨5⟩, ⟨[]⟩)))⟩, .new, some 1, [1],
      [.error (⟨5⟩, ⟨[]⟩)], [], []⟩, some 0⟩,
    ⟨⟨[]⟩, ⟨7, .polled, some ⟨2, .poll (.ready (.error (⟨5⟩, ⟨[]⟩)))⟩, .new, some 2, [2],
      [.error (⟨5⟩, ⟨[]⟩)], [], []⟩, some 1⟩,
    ⟨⟨[]⟩, ⟨7, .polled, some ⟨3, .poll .pending⟩, .new, some 3, [], [], [], []⟩, some 2⟩]
  threadpool := ⟨.new, ⟨[(2, ⟨7, ⟨[]⟩⟩)], by decide⟩, [.returned, .returned, .returned], .waiting⟩
  owners := [0, 1]
  pool := ⟨[], [.freed, .freed], [], .idle, false⟩

/-- The third read starves. -/
theorem starving_threeReads : weight (fun u => u.front.starving) afterThreeReads.ops =
      refused threeReads.reverse ∧
    ∀ i u, afterThreeReads.ops[i]? = some u → u.front.shared ≠ none → u.front.starving = 0 →
      (afterThreeReads.alone i u).Served ReadChild.payloadTrait u.payload :=
  starving_of_rest ReadChild.oblivious (Lts.path_of_exec threeReads rfl)
    ⟨by decide, rfl, rfl, rfl, rfl⟩

end Operations
end Kiruna.Stream
