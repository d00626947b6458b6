import Kiruna.Stream.OperationsParts

/-!
# The isolation of the operations

A step of a process moves one operation at most. That operation, seen without the others, makes a
step of its own, and the others are as they were. By induction each operation of a process has a run
of its own behind it.
-/

namespace Kiruna.Stream

variable {Payload Args Ok Failure Os Waker : Type*}

namespace Overlapped

variable {P : PayloadTrait Payload Args Ok Failure Os} {handle : Handle} {payload : Payload}
  {s t : Overlapped Payload Args (Except Failure Ok) Waker} {w : Waker}

/-- The steps of the parent. Where the pool is does not matter to them. -/
def OfParent : OverlappedLabel Waker Os → Prop
  | .poll _ | .dropParent => True
  | _ => False

theorem step_of_parent {a : OverlappedLabel Waker Os} (ha : OfParent a) (hnew : s.pool = .new)
    (h : s.step P a = some t) (pool : Pool Payload Args (Except Failure Ok)) :
    t.pool = { Pool.new with queue := t.pool.queue } ∧ t.pool.queue.length ≤ 1 ∧
      ({ s with pool := pool } : Overlapped _ _ _ _).step P a =
        some { t with pool := { pool with queue := pool.queue ++ t.pool.queue } } := by
  obtain ⟨handle, parent, shared, p, lastWaker, woken, readied, returned, completed⟩ := s
  obtain rfl : p = .new := hnew
  cases a with
  | poll w =>
      cases parent with
      | notPolled payload =>
          cases h
          exact ⟨rfl, le_rfl, rfl⟩
      | polled =>
          cases shared with
          | none => cases h
          | some shared =>
              obtain ⟨waker, result⟩ := shared
              cases result with
              | poll q =>
                  cases q <;> cases h <;>
                    exact ⟨rfl, Nat.zero_le _,
                      by simp [step, poll, PolledResult.maybeTake, Pool.new]⟩
              | gone =>
                  cases h
                  exact ⟨rfl, Nat.zero_le _, by simp [step, poll, PolledResult.maybeTake, Pool.new]⟩
      | panicked | dropped => cases h
  | dropParent =>
      cases parent <;> cases h <;> exact ⟨rfl, Nat.zero_le _, by simp [step, Pool.new]⟩
  | _ => cases ha

theorem Inv.handle_eq (h : Inv P handle payload s) : s.handle = handle := by
  cases h <;> rfl

theorem Inv.boxes (h : Inv P handle payload s) : s.pool.boxes.length ≤ 1 := by
  cases h with
  | unpolled => exact Nat.zero_le _
  | polled _ hphase => cases hphase <;> simp

theorem Inv.queue (h : Inv P handle payload s) : s.pool.queue.length ≤ 1 := by
  cases h with
  | unpolled => exact Nat.zero_le _
  | polled _ hphase => cases hphase <;> simp

theorem Inv.calls (h : Inv P handle payload s) : s.pool.calls.length ≤ 1 := by
  cases h with
  | unpolled => exact Nat.zero_le _
  | polled _ hphase => cases hphase <;> simp

theorem Inv.fault (h : Inv P handle payload s) : s.pool.fault = false := by
  cases h with
  | unpolled => rfl
  | polled _ hphase => cases hphase <;> rfl

/-- A closure that waits is all there is of its operation. -/
theorem Inv.queued (h : Inv P handle payload s) {c : Child Payload} {queue : List (Child Payload)}
    (hq : s.pool.queue = c :: queue) :
    s.pool = ⟨[c], [], [], .idle, false⟩ := by
  cases h with
  | unpolled => cases hq
  | polled _ hphase =>
      cases hphase <;> cases hq
      rfl

end Overlapped

namespace Operations

variable {P : PayloadTrait Payload Args Ok Failure Os} {i k : ℕ}
  {hist : ℕ → List (OverlappedLabel Waker Os)}
  {s t : Operations Payload Args (Except Failure Ok) Waker}
  {u u' : Operation Payload Args (Except Failure Ok) Waker}

/-- What the numbers in the threadpool, on the heap and in the system refer to. -/
structure Linked {R : Type*} (s : Operations Payload Args R Waker) : Prop where
  boxes : s.owners.length = s.pool.boxes.length
  owners : ∀ i ∈ s.owners, i < s.ops.length
  closures : ∀ c ∈ s.threadpool.closures, c.1 < s.ops.length
  calls : ∀ c ∈ s.pool.calls, c.hEvent < s.owners.length
  worker : ∀ raw ∈ s.pool.worker.raw?, raw < s.owners.length
  idle : s.threadpool.worker = .recv ∨ s.threadpool.worker = .starting → s.pool.worker = .idle
  fault : s.pool.fault = false
  fronts : ∀ u ∈ s.ops, u.front.pool = .new

/-- The operation whose callback runs. -/
def running {R : Type*} (s : Operations Payload Args R Waker) : Option ℕ :=
  s.pool.worker.raw?.bind fun raw => s.owners[raw]?

/-- The operation that a step of the process moves, and the step that it makes by itself. -/
def acts {R : Type*} (s : Operations Payload Args R Waker) :
    OperationsLabel Payload Waker Os → Option (ℕ × OverlappedLabel Waker Os)
  | .poll i waker => some (i, .poll waker)
  | .dropParent i => some (i, .dropParent)
  | .recv => s.threadpool.channel.items.head?.map fun c => (c.1, .runClosure)
  | .beginOp os => s.running.map fun i => (i, .beginOp os)
  | .complete n errorCode bytesTransferred =>
      (s.pool.calls[n]?.bind fun call => s.owners[call.hEvent]?).map fun i =>
        (i, .complete 0 errorCode bytesTransferred)
  | .resumeOp os => s.running.map fun i => (i, .resumeOp os)
  | .ready => s.running.map fun i => (i, .ready)
  | .drop => s.running.map fun i => (i, .drop)
  | _ => none

/-- The histories of the operations after one more step. -/
def record (hist : ℕ → List (OverlappedLabel Waker Os)) :
    Option (ℕ × OverlappedLabel Waker Os) → ℕ → List (OverlappedLabel Waker Os)
  | none => hist
  | some (k, a) => fun i => if i = k then a :: hist i else hist i

theorem record_self (hist : ℕ → List (OverlappedLabel Waker Os)) (a : OverlappedLabel Waker Os) :
    record hist (some (k, a)) k = a :: hist k := if_pos rfl

theorem record_of_ne (hist : ℕ → List (OverlappedLabel Waker Os)) (a : OverlappedLabel Waker Os)
    (hik : i ≠ k) : record hist (some (k, a)) i = hist i := if_neg hik

/-- Each operation has a run of its own behind it. -/
structure Apart (P : PayloadTrait Payload Args Ok Failure Os)
    (hist : ℕ → List (OverlappedLabel Waker Os))
    (s : Operations Payload Args (Except Failure Ok) Waker) : Prop where
  run : ∀ i u, s.ops[i]? = some u → (Overlapped.system P u.front.handle u.payload).Run
    Overlapped.PollsBeforeReady (hist i) (s.alone i u)
  fresh : ∀ i, s.ops.length ≤ i → hist i = []

theorem Apart.inv (hs : Apart P hist s) (hu : s.ops[i]? = some u) :
    Overlapped.Inv P u.front.handle u.payload (s.alone i u) :=
  Overlapped.inv_of_run (hs.run i u hu)

/-- The operation `k` makes the step `a`, and nothing happens to the others. -/
structure Moves (P : PayloadTrait Payload Args Ok Failure Os)
    (s t : Operations Payload Args (Except Failure Ok) Waker) (k : ℕ)
    (a : OverlappedLabel Waker Os) : Prop where
  self : ∃ u u', s.ops[k]? = some u ∧ t.ops = s.ops.set k u' ∧ u'.payload = u.payload ∧
    Overlapped.PollsBeforeReady (s.alone k u) a ∧
    (s.alone k u).step P a = some (t.alone k u')
  other : ∀ i u, i ≠ k → s.ops[i]? = some u → t.alone i u = s.alone i u

theorem Apart.moves {a : OverlappedLabel Waker Os} (hs : Apart P hist s)
    (hm : Moves P s t k a) : Apart P (record hist (some (k, a))) t := by
  obtain ⟨u, u', hu, hops, hpay, hok, hst⟩ := hm.self
  have hk := (List.getElem?_eq_some_iff.mp hu).1
  refine ⟨?_, ?_⟩
  · intro i v hv
    rw [hops] at hv
    by_cases hik : i = k
    · subst hik
      obtain rfl : u' = v := by
        rw [List.getElem?_set_self hk] at hv
        exact Option.some.inj hv
      have hr := (hs.run i u hu).snoc hok hst
      have hhandle : u'.front.handle = u.front.handle := (Overlapped.inv_of_run hr).handle_eq
      rw [hhandle, hpay, record_self]
      exact hr
    · rw [List.getElem?_set_ne (Ne.symm hik)] at hv
      rw [hm.other i v hik hv, record_of_ne hist a hik]
      exact hs.run i v hv
  · intro i hi
    rw [hops, List.length_set] at hi
    rw [record_of_ne hist a (by omega)]
    exact hs.fresh i hi

/-- What holds in every state of a process. -/
structure Isolated (P : PayloadTrait Payload Args Ok Failure Os)
    (hist : ℕ → List (OverlappedLabel Waker Os))
    (s : Operations Payload Args (Except Failure Ok) Waker) : Prop where
  linked : s.Linked
  apart : s.Apart P hist

theorem Isolated.threadpoolStep {a : ThreadpoolLabel (ℕ × Child Payload)} (hs : Isolated P hist s)
    (h : s.threadpoolStep a = some t) (ha : Threadpool.Carries a)
    (hidle : a = .waitObject → s.pool.worker = .idle) : Isolated P hist t := by
  obtain ⟨tp, htp, rfl⟩ := Option.map_eq_some_iff.mp h
  have hp := Threadpool.closures_perm ha htp
  have hl := hs.linked
  refine ⟨⟨hl.boxes, hl.owners, fun c hc => hl.closures c (hp.mem_iff.mpr hc), hl.calls, hl.worker,
    ?_, hl.fault, hl.fronts⟩, ?_⟩
  · intro hw
    rcases Threadpool.worker_of_carries ha htp with heq | heq | rfl
    · exact hl.idle (heq ▸ hw)
    · simp only [heq] at hw
      rcases hw with hw | hw <;> cases hw
    · exact hidle rfl
  · refine ⟨fun i u hu => ?_, hs.apart.fresh⟩
    have halone : ({ s with threadpool := tp } : Operations _ _ _ _).alone i u = s.alone i u := by
      have hq := (hs.apart.inv hu).queue
      unfold alone
      rw [filterMap_eq_of_perm hp hq]
    rw [halone]
    exact hs.apart.run i u hu

theorem Isolated.parentStep {a : OverlappedLabel Waker Os} {f : Overlapped _ _ _ Waker}
    (hs : Isolated P hist s) (hu : s.ops[i]? = some u) (ha : Overlapped.OfParent a)
    (hok : Overlapped.PollsBeforeReady (s.alone i u) a) (h : u.front.step P a = some f) :
    Isolated P (record hist (some (i, a))) (s.called i u f) := by
  have hl := hs.linked
  have hi := (List.getElem?_eq_some_iff.mp hu).1
  obtain ⟨hpool, hlen, hst⟩ := Overlapped.step_of_parent ha
    (hl.fronts u (List.mem_of_getElem? hu)) h (s.alone i u).pool
  cases hq : f.pool.queue with
  | nil =>
      rw [hq] at hpool hst
      rw [List.append_nil] at hst
      simp only [called, hq]
      refine ⟨⟨hl.boxes, ?_, ?_, hl.calls, hl.worker, hl.idle, hl.fault, ?_⟩,
        hs.apart.moves (k := i) (a := a) ⟨⟨u, _, hu, rfl, rfl, hok, hst⟩, fun _ _ _ _ => rfl⟩⟩
      · simpa only [setOp, List.length_set] using hl.owners
      · simpa only [setOp, List.length_set] using hl.closures
      · intro v hv
        rcases List.mem_or_eq_of_mem_set hv with hv | rfl
        · exact hl.fronts v hv
        · exact hpool
  | cons c rest =>
      obtain rfl : rest = [] := by
        rw [hq, List.length_cons] at hlen
        exact List.length_eq_zero_iff.mp (by omega)
      have hclosures : ({ s.threadpool with
          senders := s.threadpool.senders ++ [.push (i, c)] } : Threadpool _).closures =
            s.threadpool.closures ++ [(i, c)] := by
        simp only [Threadpool.closures, List.filterMap_append, List.append_assoc]
        rfl
      simp only [called, hq]
      refine ⟨⟨hl.boxes, ?_, ?_, hl.calls, hl.worker, hl.idle, hl.fault, ?_⟩,
        hs.apart.moves (k := i) (a := a) ⟨⟨u, _, hu, rfl, rfl, hok, ?_⟩, ?_⟩⟩
      · simpa only [List.length_set] using hl.owners
      · intro d hd
        rw [hclosures] at hd
        rw [List.length_set]
        rcases List.mem_append.mp hd with hd | hd
        · exact hl.closures d hd
        · rw [List.mem_singleton.mp hd]
          exact hi
      · intro v hv
        rcases List.mem_or_eq_of_mem_set hv with hv | rfl
        · exact hl.fronts v hv
        · rfl
      · refine hst.trans ?_
        simp only [alone, hclosures, List.filterMap_append, hq]
        simp [closureOf, Pool.part]
      · intro j v hj hv
        simp only [alone, hclosures, List.filterMap_append]
        simp [closureOf, Ne.symm hj]

theorem Isolated.received {tp : Threadpool (ℕ × Child Payload)} (hs : Isolated P hist s)
    (htp : s.threadpool.step .recv = some tp) (h : s.received tp = some t) :
    Isolated P (record hist (s.acts .recv)) t := by
  have hl := hs.linked
  obtain ⟨⟨k, c⟩, hrecv, hrun, hhead, hclosures⟩ := Threadpool.closures_recv htp
  rw [acts, hhead, Option.map_some]
  simp only [Operations.received, hrun] at h
  obtain rfl := Option.some.inj h
  have hk : k < s.ops.length := hl.closures (k, c) (by simp [hclosures])
  have hu := List.getElem?_eq_getElem hk
  have hidle := hl.idle (.inl hrecv)
  have howner (raw : ℕ) (hraw : raw < s.owners.length) :
      (s.owners ++ [k])[raw]? = s.owners[raw]? := List.getElem?_append_left hraw
  have hcalls (i : ℕ) : s.pool.calls.filterMap (Pool.callOf (s.owners ++ [k]) i) =
      s.pool.calls.filterMap (Pool.callOf s.owners i) := by
    refine List.filterMap_congr fun call hcall => ?_
    rw [Pool.callOf, Pool.callOf, howner _ (hl.calls call hcall)]
  have hworker (i : ℕ) : Pool.workerOf (s.owners ++ [k]) i
      (.beginOp s.pool.boxes.length : CallbackPc (Except Failure Ok)) =
        if k = i then .beginOp 0 else .idle := by
    simp [Pool.workerOf, CallbackPc.raw?, CallbackPc.moved, ← hl.boxes]
  have hqueue : (s.alone k s.ops[k]).pool.queue = c :: tp.closures.filterMap (closureOf k) := by
    simp [alone, Pool.part, hclosures, closureOf]
  have hqueued := (hs.apart.inv hu).queued hqueue
  have hrest : tp.closures.filterMap (closureOf k) = [] := by
    rw [hqueued] at hqueue
    exact (List.cons.inj hqueue).2.symm
  have halone (i : ℕ) (v : Operation Payload Args (Except Failure Ok) Waker) :
      ({ s with
        threadpool := tp
        owners := s.owners ++ [k]
        pool := { s.pool with
          boxes := s.pool.boxes ++ [.owned c]
          worker := .beginOp s.pool.boxes.length } } : Operations _ _ _ _).alone i v =
      { s.alone i v with
        pool := { (s.alone i v).pool with
          queue := tp.closures.filterMap (closureOf i)
          boxes := (s.alone i v).pool.boxes ++ if k = i then [.owned c] else []
          worker := if k = i then .beginOp 0 else .idle } } := by
    have hcell : [(k, Cell.owned c)].filterMap (Pool.cellOf i) =
        if k = i then [.owned c] else [] := by
      by_cases hki : k = i <;> simp [Pool.cellOf, hki]
    simp only [alone, Pool.part, hcalls, hworker, List.zip_append hl.boxes, List.filterMap_append,
      List.zip_cons_cons, List.zip_nil_left, hcell]
  refine ⟨⟨?_, ?_, ?_, ?_, ?_, ?_, hl.fault, hl.fronts⟩, hs.apart.moves (k := k)
    (a := .runClosure) ⟨⟨_, s.ops[k], hu, (List.set_getElem_self hk).symm, rfl, trivial, ?_⟩, ?_⟩⟩
  · simp [hl.boxes]
  · intro i hi
    rcases List.mem_append.mp hi with hi | hi
    · exact hl.owners i hi
    · rwa [List.mem_singleton.mp hi]
  · intro d hd
    exact hl.closures d (by simp [hclosures, hd])
  · intro call hcall
    rw [List.length_append]
    exact Nat.lt_add_right 1 (hl.calls call hcall)
  · intro raw hraw
    obtain rfl : s.pool.boxes.length = raw := Option.some.inj hraw
    simp [hl.boxes]
  · intro hw
    simp only [hrun] at hw
    rcases hw with hw | hw <;> cases hw
  · rw [halone]
    simp [Overlapped.step, hqueued, hrest]
  · intro i v hik _
    rw [halone]
    simp [Ne.symm hik, alone, Pool.part, hclosures, closureOf, hidle]

/-- The callback that runs has a box, and the operation of the box is there. -/
theorem Linked.owner {raw : Handle} (hl : Linked s) (hraw : raw < s.owners.length) :
    ∃ k u, s.owners[raw]? = some k ∧ s.ops[k]? = some u := by
  have hk := List.getElem?_eq_getElem hraw
  have hlt := hl.owners _ (List.mem_of_getElem? hk)
  exact ⟨_, _, hk, List.getElem?_eq_getElem hlt⟩

/-- A callback that works at its own box. -/
theorem Isolated.callback {raw : Handle} {p : Pool Payload Args (Except Failure Ok)}
    {a : OverlappedLabel Waker Os} {b : OperationsLabel Payload Waker Os} (hs : Isolated P hist s)
    (hraw : s.pool.worker.raw? = some raw) (hb : s.acts b = s.running.map fun i => (i, a))
    (ha : ∀ v : Overlapped Payload Args (Except Failure Ok) Waker, v.PollsBeforeReady a)
    (hacts : p.fault = false → Pool.ActsAt raw s.pool p)
    (hstep : ∀ k u, s.owners[raw]? = some k → (s.alone k u).pool.boxes.length ≤ 1 →
      (s.alone k u).step P a = some { s.alone k u with
        pool := p.part s.owners k (s.alone k u).pool.queue }) :
    Isolated P (record hist (s.acts b)) { s with pool := p } := by
  have hl := hs.linked
  have hlt := hl.worker raw hraw
  obtain ⟨k, u, hk, hu⟩ := hl.owner hlt
  have hr := hs.apart.run k u hu
  have hst := hstep k u hk (Overlapped.inv_of_run hr).boxes
  have hfault : p.fault = false := (Overlapped.inv_of_run (hr.snoc (ha _) hst)).fault
  have hact := hacts hfault
  have hother (i : ℕ) (v : Operation Payload Args (Except Failure Ok) Waker) (hik : i ≠ k) :
      ({ s with pool := p } : Operations _ _ _ _).alone i v = s.alone i v := by
    unfold alone
    rw [hact.part_other hl.boxes hk (Ne.symm hik) fun b hb => Option.some.inj (hb.symm.trans hraw)]
  rw [hb, running, hraw, Option.bind_some, hk, Option.map_some]
  refine ⟨⟨?_, hl.owners, hl.closures, ?_, ?_, ?_, hfault, hl.fronts⟩,
    hs.apart.moves ⟨⟨u, u, hu, ?_, rfl, ha _, hst⟩, fun i v hik _ => hother i v hik⟩⟩
  · obtain ⟨cell, calls, w, rfl, -, -⟩ := hact
    rw [List.length_set, hl.boxes]
  · obtain ⟨cell, calls, w, rfl, hcalls, -⟩ := hact
    intro call hcall
    rcases List.mem_append.mp hcall with hcall | hcall
    · exact hl.calls call hcall
    · rwa [hcalls call hcall]
  · obtain ⟨cell, calls, w, rfl, -, hw⟩ := hact
    intro b hb
    rwa [hw b hb]
  · intro hw
    rw [hl.idle hw] at hraw
    cases hraw
  · obtain ⟨hlen, rfl⟩ := List.getElem?_eq_some_iff.mp hu
    exact (List.set_getElem_self hlen).symm

/-- The callback of the operation, seen alone. -/
theorem alone_worker {raw : Handle} {k : ℕ} (hraw : s.pool.worker.raw? = some raw)
    (hk : s.owners[raw]? = some k) (u : Operation Payload Args (Except Failure Ok) Waker) :
    (s.alone k u).pool.worker = s.pool.worker.moved 0 :=
  Pool.workerOf_of_owner hraw hk

theorem Isolated.beginOp {raw : Handle} {os : Os} (hP : P.Oblivious) (hs : Isolated P hist s)
    (hw : s.pool.worker = .beginOp raw) :
    Isolated P (record hist (s.acts (.beginOp os : OperationsLabel Payload Waker Os)))
      { s with pool := s.pool.beginOp P raw os } := by
  have hraw : s.pool.worker.raw? = some raw := by rw [hw, CallbackPc.raw?]
  refine hs.callback (a := .beginOp os) hraw rfl (fun _ => trivial) Pool.beginOp_actsAt ?_
  intro k u hk hone
  have halone := alone_worker hraw hk u
  rw [hw, CallbackPc.moved] at halone
  have hpart : (s.pool.beginOp P raw os).part s.owners k (s.alone k u).pool.queue =
      (s.alone k u).pool.beginOp P 0 os :=
    Pool.part_beginOp hP hs.linked.boxes hk hone
  simp only [Overlapped.step, halone, hpart]

theorem Isolated.resumeOp {raw : Handle} {e b : UInt32} {os : Os} (hP : P.Oblivious)
    (hs : Isolated P hist s) (hw : s.pool.worker = .resumeOp raw e b) :
    Isolated P (record hist (s.acts (.resumeOp os : OperationsLabel Payload Waker Os)))
      { s with pool := s.pool.resumeOp P raw e b os } := by
  have hraw : s.pool.worker.raw? = some raw := by rw [hw, CallbackPc.raw?]
  refine hs.callback (a := .resumeOp os) hraw rfl (fun _ => trivial) Pool.resumeOp_actsAt ?_
  intro k u hk hone
  have halone := alone_worker hraw hk u
  rw [hw, CallbackPc.moved] at halone
  have hpart : (s.pool.resumeOp P raw e b os).part s.owners k (s.alone k u).pool.queue =
      (s.alone k u).pool.resumeOp P 0 e b os :=
    Pool.part_resumeOp hP hs.linked.boxes hk hone
  simp only [Overlapped.step, halone, hpart]

theorem Isolated.drop {raw : Handle} {caller : Caller} (hs : Isolated P hist s)
    (hw : s.pool.worker = .drop caller raw) :
    Isolated P (record hist (s.acts (.drop : OperationsLabel Payload Waker Os)))
      { s with pool := s.pool.drop caller raw } := by
  have hraw : s.pool.worker.raw? = some raw := by rw [hw, CallbackPc.raw?]
  refine hs.callback (a := .drop) hraw rfl (fun _ => trivial) Pool.drop_actsAt ?_
  intro k u hk hone
  have halone := alone_worker hraw hk u
  rw [hw, CallbackPc.moved] at halone
  have hpart : (s.pool.drop caller raw).part s.owners k (s.alone k u).pool.queue =
      (s.alone k u).pool.drop caller 0 :=
    Pool.part_drop hs.linked.boxes hk hone
  simp only [Overlapped.step, halone, hpart]

theorem Isolated.completion {n : ℕ} {call : OsCall Args} {e b : UInt32} (hs : Isolated P hist s)
    (hw : s.pool.worker = .idle) (hwait : s.threadpool.worker = .waiting)
    (hcall : s.pool.calls[n]? = some call) (h : s.completion n call e b = some t) :
    Isolated P (record hist (s.acts (.complete n e b))) t := by
  have hl := hs.linked
  have hlt := hl.calls call (List.mem_of_getElem? hcall)
  obtain ⟨k, u, hk, hu⟩ := hl.owner hlt
  simp only [Operations.completion, hk, hu] at h
  rw [acts, hcall, Option.bind_some, hk, Option.map_some]
  obtain rfl := Option.some.inj h
  have hcallOf : Pool.callOf s.owners k call = some ⟨0, call.args⟩ := if_pos hk
  have hone := (hs.apart.inv hu).calls
  have hcalls : (s.alone k u).pool.calls = [⟨0, call.args⟩] :=
    filterMap_eq_singleton hcall hcallOf hone
  have hnone : (s.pool.calls.eraseIdx n).filterMap (Pool.callOf s.owners k) = [] :=
    filterMap_eraseIdx_alone hcall hcallOf hone
  have hidle : (s.alone k u).pool.worker = .idle := by
    simp [alone, Pool.part, hw]
  have hworker : Pool.workerOf s.owners k
      (.resumeOp call.hEvent e b : CallbackPc (Except Failure Ok)) = .resumeOp 0 e b :=
    Pool.workerOf_of_owner rfl hk
  refine ⟨⟨hl.boxes, ?_, ?_, fun c hc => hl.calls c (List.mem_of_mem_eraseIdx hc), ?_, ?_,
    hl.fault, ?_⟩, hs.apart.moves (k := k) (a := .complete 0 e b)
      ⟨⟨u, _, hu, rfl, rfl, trivial, ?_⟩, ?_⟩⟩
  · simpa only [List.length_set] using hl.owners
  · simpa only [List.length_set] using hl.closures
  · intro raw hraw
    obtain rfl : call.hEvent = raw := Option.some.inj hraw
    exact hlt
  · intro hrecv
    rw [hwait] at hrecv
    rcases hrecv with hrecv | hrecv <;> cases hrecv
  · intro v hv
    rcases List.mem_or_eq_of_mem_set hv with hv | rfl
    · exact hl.fronts v hv
    · exact hl.fronts u (List.mem_of_getElem? hu)
  · simp only [Overlapped.step, hidle, hcalls, List.getElem?_cons_zero, List.eraseIdx_cons_zero]
    simp [alone, Pool.part, hnone, hworker]
  · intro i v hik _
    have hcallOf' : Pool.callOf s.owners i call = none := by
      rw [Pool.callOf, hk, if_neg (by simpa using Ne.symm hik)]
    have hother : Pool.workerOf s.owners i
        (.resumeOp call.hEvent e b : CallbackPc (Except Failure Ok)) = .idle :=
      Pool.workerOf_of_ne hk (Ne.symm hik) (by simp [CallbackPc.raw?])
    simp [alone, Pool.part, filterMap_eraseIdx hcall hcallOf', hother, hw]

theorem Isolated.ready {caller : Caller} {raw : Handle} {r : Except Failure Ok}
    (hs : Isolated P hist s) (hw : s.pool.worker = .ready caller raw r)
    (h : s.ready caller raw r = some t) : Isolated P (record hist (s.acts .ready)) t := by
  have hl := hs.linked
  have hraw : s.pool.worker.raw? = some raw := by rw [hw, CallbackPc.raw?]
  have hlt := hl.worker raw hraw
  obtain ⟨k, u, hk, hu⟩ := hl.owner hlt
  simp only [Operations.ready, hk, hu, Option.bind_some] at h
  rw [acts, running, hraw, Option.bind_some, hk, Option.map_some]
  obtain ⟨shared, hshared, rfl⟩ := Option.map_eq_some_iff.mp h
  have hready : (s.alone k u).pool.worker = .ready caller 0 r := by
    rw [alone_worker hraw hk, hw, CallbackPc.moved]
  have hworker : Pool.workerOf s.owners k (.drop caller raw : CallbackPc (Except Failure Ok)) =
      .drop caller 0 := Pool.workerOf_of_owner rfl hk
  refine ⟨⟨hl.boxes, ?_, ?_, hl.calls, ?_, ?_, hl.fault, ?_⟩,
    hs.apart.moves (k := k) (a := .ready) ⟨⟨u, _, hu, rfl, rfl, trivial, ?_⟩, ?_⟩⟩
  · simpa only [List.length_set] using hl.owners
  · simpa only [List.length_set] using hl.closures
  · intro b hb
    obtain rfl : raw = b := Option.some.inj hb
    exact hlt
  · intro hrecv
    rw [hl.idle hrecv] at hw
    cases hw
  · intro v hv
    rcases List.mem_or_eq_of_mem_set hv with hv | rfl
    · exact hl.fronts v hv
    · exact hl.fronts u (List.mem_of_getElem? hu)
  · have hs' : (s.alone k u).shared = some shared := hshared
    simp only [Overlapped.step, hready, hs']
    simp [alone, Pool.part, hworker]
  · intro i v hik _
    have hbefore : Pool.workerOf s.owners i s.pool.worker = .idle :=
      Pool.workerOf_of_ne hk (Ne.symm hik) fun b hb => Option.some.inj (hb.symm.trans hraw)
    have hafter : Pool.workerOf s.owners i (.drop caller raw : CallbackPc (Except Failure Ok)) =
        .idle := Pool.workerOf_of_ne hk (Ne.symm hik) (by simp [CallbackPc.raw?])
    simp [alone, Pool.part, hbefore, hafter]

/-- Nothing belongs to an operation that is not there yet. -/
theorem Linked.fresh (hl : Linked s) :
    s.pool.part s.owners s.ops.length (s.threadpool.closures.filterMap (closureOf s.ops.length)) =
      .new := by
  have hclosures : s.threadpool.closures.filterMap (closureOf s.ops.length) = [] := by
    rw [List.filterMap_eq_nil_iff]
    intro c hc
    exact if_neg (hl.closures c hc).ne
  have hboxes : (s.owners.zip s.pool.boxes).filterMap (Pool.cellOf s.ops.length) = [] := by
    rw [List.filterMap_eq_nil_iff]
    intro c hc
    exact if_neg (hl.owners c.1 (List.of_mem_zip hc).1).ne
  have howner (raw : ℕ) (k : ℕ) (hk : s.owners[raw]? = some k) : k ≠ s.ops.length :=
    (hl.owners k (List.mem_of_getElem? hk)).ne
  have hcalls : s.pool.calls.filterMap (Pool.callOf s.owners s.ops.length) = [] := by
    rw [List.filterMap_eq_nil_iff]
    intro c hc
    exact if_neg fun h => howner _ _ h rfl
  have hworker : Pool.workerOf s.owners s.ops.length s.pool.worker = .idle := by
    refine if_neg fun h => ?_
    obtain ⟨raw, -, hraw⟩ := Option.bind_eq_some_iff.mp h
    exact howner _ _ hraw rfl
  simp only [Pool.part, hclosures, hboxes, hcalls, hworker, hl.fault]
  rfl

theorem Isolated.newParent {handle : Handle} {payload : Payload} (hs : Isolated P hist s) :
    Isolated P hist { s with ops := s.ops ++ [⟨payload, .new handle payload, none⟩] } := by
  have hl := hs.linked
  have hlt {i : ℕ} (hi : i < s.ops.length) :
      i < (s.ops ++ [(⟨payload, .new handle payload, none⟩ : Operation _ _ _ Waker)]).length := by
    rw [List.length_append]
    exact Nat.lt_add_right 1 hi
  refine ⟨⟨hl.boxes, fun i hi => hlt (hl.owners i hi), fun c hc => hlt (hl.closures c hc), hl.calls,
    hl.worker, hl.idle, hl.fault, ?_⟩, ?_⟩
  · intro u hu
    rcases List.mem_append.mp hu with hu | hu
    · exact hl.fronts u hu
    · rw [List.mem_singleton.mp hu]
      rfl
  · refine ⟨fun i u hu => ?_, fun i hi => hs.apart.fresh i ?_⟩
    swap
    · rw [List.length_append] at hi
      omega
    rcases Nat.lt_or_ge i s.ops.length with hi | hi
    · rw [List.getElem?_append_left hi] at hu
      exact hs.apart.run i u hu
    · rw [List.getElem?_append_right hi] at hu
      obtain ⟨hi', rfl⟩ := List.getElem?_eq_some_iff.mp hu
      obtain rfl : i = s.ops.length := by
        rw [List.length_singleton] at hi'
        omega
      have hnew : ({ s with ops := s.ops ++ [⟨payload, .new handle payload, none⟩] } :
          Operations Payload Args (Except Failure Ok) Waker).alone s.ops.length
            ⟨payload, .new handle payload, none⟩ = Overlapped.new handle payload := by
        simp only [alone, hl.fresh]
        rfl
      simp only [Nat.sub_self, List.getElem_cons_zero, hnew, hs.apart.fresh _ le_rfl]
      exact .refl

theorem Isolated.step {a : OperationsLabel Payload Waker Os} (hP : P.Oblivious)
    (hs : Isolated P hist s) (hok : PollsBeforeReady s a) (h : s.step P a = some t) :
    Isolated P (record hist (s.acts a)) t := by
  cases a with
  | new handle payload =>
      cases h
      exact hs.newParent
  | poll i w =>
      simp only [Operations.step] at h
      split at h
      · cases h
      · rename_i u hu
        split_ifs at h
        obtain ⟨f, hf, rfl⟩ := Option.map_eq_some_iff.mp h
        exact hs.parentStep hu (a := .poll w) trivial (hok u hu) hf
  | dropParent i =>
      simp only [Operations.step] at h
      split at h
      · cases h
      · rename_i u hu
        split_ifs at h
        obtain ⟨f, hf, rfl⟩ := Option.map_eq_some_iff.mp h
        exact hs.parentStep hu (a := .dropParent) trivial trivial hf
  | push k | release k granted | beginThread =>
      exact hs.threadpoolStep h trivial fun ha => by cases ha
  | waitObject | alerted | closureReturned =>
      simp only [Operations.step] at h
      split at h
      · rename_i hw
        exact hs.threadpoolStep h trivial fun _ => hw
      · cases h
  | recv =>
      obtain ⟨tp, htp, hrec⟩ := Option.bind_eq_some_iff.mp h
      exact hs.received htp hrec
  | beginOp os =>
      simp only [Operations.step] at h
      split at h
      · rename_i hw
        cases h
        exact hs.beginOp hP hw
      · cases h
  | complete n e b =>
      simp only [Operations.step] at h
      split at h
      · rename_i hw hwait hcall
        exact hs.completion hw hwait hcall h
      · cases h
  | resumeOp os =>
      simp only [Operations.step] at h
      split at h
      · rename_i hw
        cases h
        exact hs.resumeOp hP hw
      · cases h
  | ready =>
      simp only [Operations.step] at h
      split at h
      · rename_i hw
        exact hs.ready hw h
      · cases h
  | drop =>
      simp only [Operations.step] at h
      split at h
      · rename_i hw
        cases h
        exact hs.drop hw
      · cases h

/-- What a process has done to its operation `i`, newest first. -/
def history (P : PayloadTrait Payload Args Ok Failure Os) :
    List (OperationsLabel Payload Waker Os) → ℕ → List (OverlappedLabel Waker Os)
  | [] => fun _ => []
  | a :: h => record (history P h)
      (((system P : Lts (Operations Payload Args (Except Failure Ok) Waker) _).after h).bind
        fun s => s.acts a)

theorem isolated_of_run {h : List (OperationsLabel Payload Waker Os)} (hP : P.Oblivious)
    (hr : (system P).Run PollsBeforeReady h s) : Isolated P (history P h) s := by
  refine hr.induct (P := fun h s => Isolated P (history P h) s) ?_ ?_
  · refine ⟨⟨rfl, ?_, ?_, ?_, ?_, fun _ => rfl, rfl, ?_⟩, ?_, fun _ _ => rfl⟩
    · exact fun i hi => absurd hi List.not_mem_nil
    · exact fun c hc => absurd hc List.not_mem_nil
    · exact fun c hc => absurd hc List.not_mem_nil
    · exact fun raw hraw => absurd hraw (by simp [system, new, Pool.new, CallbackPc.raw?])
    · exact fun u hu => absurd hu List.not_mem_nil
    · intro i u hu
      cases hu
  · intro h s a t hr hs hok hst
    rw [history, hr.after_eq, Option.bind_some]
    exact hs.step hP hok hst

end Operations
end Kiruna.Stream
