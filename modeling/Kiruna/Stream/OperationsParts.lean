import Kiruna.Primitive.Parts
import Kiruna.Stream.Operations
import Kiruna.Stream.OverlappedDelivery

/-!
# One operation among the others

`Operations.alone` shows an operation without the others: what of the threadpool, of the heap and of
the system belongs to it, with its box at address 0. A callback changes the part of the operation
that owns its box, as the callback of an operation that is alone would, and no other.
-/

namespace Kiruna.Stream

variable {Payload Args Ok Failure Os Waker R : Type*}

def OpResult.moved (raw : Handle) (o : OpResult Payload Args R) : OpResult Payload Args R :=
  { o with calls := o.calls.map fun c => { c with hEvent := raw } }

/-- A payload that does nothing with `hEvent` but pass it on to its calls. -/
structure PayloadTrait.Oblivious (P : PayloadTrait Payload Args Ok Failure Os) : Prop where
  beginOp : ∀ p handle hEvent os,
    P.beginOp p handle 0 os = (P.beginOp p handle hEvent os).moved 0
  resumeOp : ∀ p errorCode bytesTransferred handle hEvent os,
    P.resumeOp p errorCode bytesTransferred handle 0 os =
      (P.resumeOp p errorCode bytesTransferred handle hEvent os).moved 0

namespace CallbackPc

/-- The box of the callback that runs. -/
def raw? : CallbackPc R → Option Handle
  | .idle => none
  | .beginOp raw | .resumeOp raw _ _ | .ready _ raw _ | .drop _ raw => some raw

def moved (a : Handle) : CallbackPc R → CallbackPc R
  | .idle => .idle
  | .beginOp _ => .beginOp a
  | .resumeOp _ errorCode bytesTransferred => .resumeOp a errorCode bytesTransferred
  | .ready caller _ r => .ready caller a r
  | .drop caller _ => .drop caller a

end CallbackPc

namespace Pool

section Parts

variable (owners : List ℕ) (i : ℕ)

def cellOf (c : ℕ × Cell (Child Payload)) : Option (Cell (Child Payload)) :=
  if c.1 = i then some c.2 else none

def callOf (c : OsCall Args) : Option (OsCall Args) :=
  if owners[c.hEvent]? = some i then some { c with hEvent := 0 } else none

def workerOf (w : CallbackPc R) : CallbackPc R :=
  if (w.raw?.bind fun raw => owners[raw]?) = some i then w.moved 0 else .idle

/-- What belongs to the operation `i`, whose closures are given. -/
def part (queue : List (Child Payload)) (s : Pool Payload Args R) : Pool Payload Args R where
  queue := queue
  boxes := (owners.zip s.boxes).filterMap (cellOf i)
  calls := s.calls.filterMap (callOf owners i)
  worker := workerOf owners i s.worker
  fault := s.fault

end Parts

variable {owners : List ℕ} {i j : ℕ} {raw : Handle} {queue : List (Child Payload)}
  {s t : Pool Payload Args R} {w : CallbackPc R}

@[simp] theorem workerOf_idle : workerOf owners i (.idle : CallbackPc R) = .idle := by
  simp [workerOf, CallbackPc.raw?]

theorem workerOf_of_owner (hw : w.raw? = some raw) (ho : owners[raw]? = some i) :
    workerOf owners i w = w.moved 0 := by
  rw [workerOf, hw, Option.bind_some, if_pos ho]

theorem workerOf_of_ne (ho : owners[raw]? = some j) (hne : j ≠ i) (hw : ∀ a ∈ w.raw?, a = raw) :
    workerOf owners i w = .idle := by
  unfold workerOf
  cases hr : w.raw? with
  | none => rfl
  | some a =>
      obtain rfl := hw a hr
      rw [Option.bind_some, ho, if_neg (by simpa using hne)]

theorem callOf_of_owner (ho : owners[raw]? = some i) {calls : List (OsCall Args)}
    (hc : ∀ c ∈ calls, c.hEvent = raw) :
    calls.filterMap (callOf owners i) = calls.map fun c => { c with hEvent := 0 } := by
  rw [← List.filterMap_eq_map]
  refine List.filterMap_congr ?_
  intro c hmem
  rw [callOf, hc c hmem, if_pos ho]
  rfl

theorem callOf_of_ne (ho : owners[raw]? = some j) (hne : j ≠ i) {calls : List (OsCall Args)}
    (hc : ∀ c ∈ calls, c.hEvent = raw) : calls.filterMap (callOf owners i) = [] := by
  rw [List.filterMap_eq_nil_iff]
  intro c hmem
  rw [callOf, hc c hmem, ho, if_neg (by simpa using hne)]

/-- What a callback does at its box: the cell and the calls are its own, and so is the callback
that comes next. -/
def ActsAt (raw : Handle) (s t : Pool Payload Args R) : Prop :=
  ∃ cell calls w, t = { s with
      boxes := s.boxes.set raw cell
      calls := s.calls ++ calls
      worker := w } ∧
    (∀ c ∈ calls, c.hEvent = raw) ∧ ∀ a ∈ w.raw?, a = raw

/-- The frame rule: a callback leaves the parts of the other operations as they are. -/
theorem ActsAt.part_other (h : ActsAt raw s t) (hlen : owners.length = s.boxes.length)
    (ho : owners[raw]? = some j) (hne : j ≠ i) (hw : ∀ a ∈ s.worker.raw?, a = raw) :
    t.part owners i queue = s.part owners i queue := by
  obtain ⟨cell, calls, w, rfl, hcalls, hw'⟩ := h
  have hraw := (List.getElem?_eq_some_iff.mp ho).1
  have hcell : (owners.zip s.boxes)[raw]? = some (j, s.boxes[raw]) :=
    List.getElem?_zip_eq_some.mpr ⟨ho, List.getElem?_eq_getElem (hlen ▸ hraw)⟩
  have hboxes : (owners.zip (s.boxes.set raw cell)).filterMap (cellOf i) =
      (owners.zip s.boxes).filterMap (cellOf i) := by
    rw [zip_set ho]
    exact filterMap_set _ hcell (by simp [cellOf, hne])
  simp only [part, hboxes, List.filterMap_append, callOf_of_ne ho hne hcalls, List.append_nil,
    workerOf_of_ne ho hne hw, workerOf_of_ne ho hne hw']

/-- The part of the operation itself, which has one box. -/
theorem part_self {cell : Cell (Child Payload)} {calls : List (OsCall Args)}
    (hlen : owners.length = s.boxes.length) (ho : owners[raw]? = some i)
    (hone : (s.part owners i queue).boxes.length ≤ 1) (hcalls : ∀ c ∈ calls, c.hEvent = raw)
    (hw : ∀ a ∈ w.raw?, a = raw) :
    part owners i queue { s with
        boxes := s.boxes.set raw cell
        calls := s.calls ++ calls
        worker := w } =
      { s.part owners i queue with
        boxes := [cell]
        calls := (s.part owners i queue).calls ++ calls.map fun c => { c with hEvent := 0 }
        worker := w.moved 0 } := by
  have hraw := (List.getElem?_eq_some_iff.mp ho).1
  have hcell : (owners.zip s.boxes)[raw]? = some (i, s.boxes[raw]) :=
    List.getElem?_zip_eq_some.mpr ⟨ho, List.getElem?_eq_getElem (hlen ▸ hraw)⟩
  have hboxes : (owners.zip (s.boxes.set raw cell)).filterMap (cellOf i) = [cell] := by
    rw [zip_set ho, filterMap_set_alone _ hcell (if_pos rfl) hone, cellOf, if_pos rfl]
    rfl
  have hworker : workerOf owners i w = w.moved 0 := by
    cases hr : w.raw? with
    | none =>
        cases w with
        | idle => exact workerOf_idle
        | _ => cases hr
    | some a =>
        obtain rfl := hw a hr
        exact workerOf_of_owner hr ho
  simp only [part, hboxes, List.filterMap_append, callOf_of_owner ho hcalls, hworker]

/-- The box of the operation, at address 0 of its part. -/
theorem part_boxes (hlen : owners.length = s.boxes.length) (ho : owners[raw]? = some i)
    (hone : (s.part owners i queue).boxes.length ≤ 1) :
    ∃ cell, s.boxes[raw]? = some cell ∧ (s.part owners i queue).boxes = [cell] := by
  have hraw := (List.getElem?_eq_some_iff.mp ho).1
  have hcell := List.getElem?_eq_getElem (l := s.boxes) (hlen ▸ hraw)
  have hpair : (owners.zip s.boxes)[raw]? = some (i, s.boxes[raw]) :=
    List.getElem?_zip_eq_some.mpr ⟨ho, hcell⟩
  exact ⟨_, hcell, filterMap_eq_singleton hpair (if_pos rfl) hone⟩

theorem part_faulted : (s.faulted).part owners i queue = (s.part owners i queue).faulted := by
  simp [part, faulted]

theorem drop_actsAt {caller : Caller} (hf : (s.drop caller raw).fault = false) :
    ActsAt raw s (s.drop caller raw) := by
  unfold drop at hf ⊢
  split at hf
  · exact ⟨.freed, [], .idle, by rw [List.append_nil], by simp, by simp [CallbackPc.raw?]⟩
  · exact ⟨.freed, [], .idle, by rw [List.append_nil], by simp, by simp [CallbackPc.raw?]⟩
  · cases hf

theorem part_drop {caller : Caller} (hlen : owners.length = s.boxes.length)
    (ho : owners[raw]? = some i) (hone : (s.part owners i queue).boxes.length ≤ 1) :
    (s.drop caller raw).part owners i queue = (s.part owners i queue).drop caller 0 := by
  obtain ⟨cell, hcell, hbox⟩ := part_boxes hlen ho hone
  have hfreed : part owners i queue { s with
        boxes := s.boxes.set raw .freed
        worker := (.idle : CallbackPc R) } =
      { s.part owners i queue with
        boxes := [.freed]
        worker := (.idle : CallbackPc R) } := by
    have hself : part owners i queue { s with
          boxes := s.boxes.set raw .freed
          calls := s.calls ++ []
          worker := (.idle : CallbackPc R) } =
        { s.part owners i queue with
          boxes := [.freed]
          calls := (s.part owners i queue).calls ++ []
          worker := (.idle : CallbackPc R) } :=
      part_self hlen ho hone (by simp) (by simp [CallbackPc.raw?])
    simpa only [List.append_nil] using hself
  unfold drop
  rw [hcell, hbox, List.getElem?_cons_zero]
  cases caller with
  | beginOp =>
      cases cell with
      | raw c => exact hfreed
      | owned c => exact part_faulted
      | freed => exact part_faulted
  | completion =>
      cases cell with
      | owned c => exact hfreed
      | raw c => exact part_faulted
      | freed => exact part_faulted

section Callbacks

variable {P : PayloadTrait Payload Args Ok Failure Os}
  {s : Pool Payload Args (Except Failure Ok)} {os : Os} {e b : UInt32}

/-- The calls that a callback makes carry its box. -/
theorem hEvent_of_honours {o : OpResult Payload Args R} (h : o.Honours raw) :
    ∀ c ∈ o.calls, c.hEvent = raw := by
  rcases honours_cases h with ⟨p, args, rfl⟩ | ⟨p, r, rfl⟩
  · intro c hc
    rw [List.mem_singleton.mp hc]
  · exact fun c hc => absurd hc List.not_mem_nil

theorem beginOp_actsAt (hf : (s.beginOp P raw os).fault = false) :
    ActsAt raw s (s.beginOp P raw os) := by
  unfold beginOp at hf ⊢
  split at hf
  · rename_i c _
    refine ⟨_, _, _, rfl, hEvent_of_honours (P.beginOp_honours c.payload c.handle raw os), ?_⟩
    cases (P.beginOp c.payload c.handle raw os).poll <;> simp [CallbackPc.raw?]
  · cases hf

theorem resumeOp_actsAt (hf : (s.resumeOp P raw e b os).fault = false) :
    ActsAt raw s (s.resumeOp P raw e b os) := by
  unfold resumeOp at hf ⊢
  split at hf
  · rename_i c _
    have hh := hEvent_of_honours (P.resumeOp_honours c.payload e b c.handle raw os)
    dsimp only
    cases (P.resumeOp c.payload e b c.handle raw os).poll with
    | ready r => exact ⟨_, _, _, rfl, hh, by simp [CallbackPc.raw?]⟩
    | pending => exact ⟨_, _, _, rfl, hh, by simp [CallbackPc.raw?]⟩
  · cases hf

theorem part_beginOp (hP : P.Oblivious) (hlen : owners.length = s.boxes.length)
    (ho : owners[raw]? = some i) (hone : (s.part owners i queue).boxes.length ≤ 1) :
    (s.beginOp P raw os).part owners i queue = (s.part owners i queue).beginOp P 0 os := by
  obtain ⟨cell, hcell, hbox⟩ := part_boxes hlen ho hone
  unfold beginOp
  rw [hcell, hbox, List.getElem?_cons_zero]
  cases cell with
  | owned c =>
      have hh := hEvent_of_honours (P.beginOp_honours c.payload c.handle raw os)
      simp only [hP.beginOp c.payload c.handle raw os, OpResult.moved, List.set_cons_zero]
      cases (P.beginOp c.payload c.handle raw os).poll with
      | ready r => exact part_self hlen ho hone hh (by simp [CallbackPc.raw?])
      | pending => exact part_self hlen ho hone hh (by simp [CallbackPc.raw?])
  | raw c => exact part_faulted
  | freed => exact part_faulted

theorem part_resumeOp (hP : P.Oblivious) (hlen : owners.length = s.boxes.length)
    (ho : owners[raw]? = some i) (hone : (s.part owners i queue).boxes.length ≤ 1) :
    (s.resumeOp P raw e b os).part owners i queue =
      (s.part owners i queue).resumeOp P 0 e b os := by
  obtain ⟨cell, hcell, hbox⟩ := part_boxes hlen ho hone
  unfold resumeOp
  rw [hcell, hbox, List.getElem?_cons_zero]
  cases cell with
  | raw c =>
      have hh := hEvent_of_honours (P.resumeOp_honours c.payload e b c.handle raw os)
      simp only [hP.resumeOp c.payload e b c.handle raw os, OpResult.moved, List.set_cons_zero]
      cases (P.resumeOp c.payload e b c.handle raw os).poll with
      | ready r => exact part_self hlen ho hone hh (by simp [CallbackPc.raw?])
      | pending => exact part_self hlen ho hone hh (by simp [CallbackPc.raw?])
  | owned c => exact part_faulted
  | freed => exact part_faulted

end Callbacks

end Pool
/-- The closure of a sender that has not pushed it. -/
def SendPc.closure? {F : Type*} : SendPc F → Option F
  | .push f => some f
  | _ => none

namespace Threadpool

variable {F : Type*} {s t : Threadpool F}

/-- The closures on their way to the worker thread. -/
def closures (s : Threadpool F) : List F :=
  s.channel.items ++ s.senders.filterMap SendPc.closure?

/-- The steps that neither bring a closure in nor take one out. -/
def Carries : ThreadpoolLabel F → Prop
  | .addTask _ | .recv => False
  | _ => True

theorem closures_perm {a : ThreadpoolLabel F} (ha : Carries a) (h : s.step a = some t) :
    s.closures.Perm t.closures := by
  cases a with
  | addTask | recv => cases ha
  | push i =>
      simp only [step] at h
      split at h
      · rename_i f hf
        obtain ⟨q, hq, rfl⟩ := Option.map_eq_some_iff.mp h
        obtain ⟨hi, hget⟩ := List.getElem?_eq_some_iff.mp hf
        obtain ⟨l₁, l₂, hl, -, hset⟩ : ∃ l₁ l₂, s.senders = l₁ ++ s.senders[i] :: l₂ ∧
            l₁.length = i ∧ s.senders.set i .release = l₁ ++ .release :: l₂ :=
          List.exists_of_set hi
        simp only [closures, hset, (Fifo.push_eq_some.mp hq).2]
        rw [hl, hget, List.filterMap_append, List.filterMap_append,
          List.filterMap_cons_some (show SendPc.closure? (.push f) = some f from rfl),
          List.filterMap_cons_none (show SendPc.closure? (.release : SendPc F) = none from rfl),
          List.append_assoc, List.singleton_append]
        exact List.Perm.append_left _ List.perm_middle
      · cases h
  | release i granted =>
      simp only [step] at h
      split at h
      · rename_i hi
        split_ifs at h
        obtain rfl := Option.some.inj h
        simp only [closures, filterMap_set (f := SendPc.closure?) .returned hi rfl]
        exact List.Perm.refl _
      · cases h
  | beginThread =>
      simp only [step] at h
      split at h <;> cases h
      exact List.Perm.refl _
  | waitObject =>
      simp only [step] at h
      split at h
      · obtain ⟨m, -, rfl⟩ := Option.map_eq_some_iff.mp h
        exact List.Perm.refl _
      · cases h
  | alerted | closureReturned =>
      simp only [step] at h
      split at h <;> cases h
      exact List.Perm.refl _

theorem worker_of_carries {a : ThreadpoolLabel F} (ha : Carries a) (h : s.step a = some t) :
    t.worker = s.worker ∨ t.worker = .waiting ∨ a = .waitObject := by
  cases a with
  | addTask | recv => cases ha
  | waitObject => exact .inr (.inr rfl)
  | push i =>
      simp only [step] at h
      split at h
      · obtain ⟨q, -, rfl⟩ := Option.map_eq_some_iff.mp h
        exact .inl rfl
      · cases h
  | release i granted =>
      simp only [step] at h
      split at h
      · split_ifs at h
        obtain rfl := Option.some.inj h
        exact .inl rfl
      · cases h
  | alerted =>
      simp only [step] at h
      split at h <;> cases h
      exact .inl rfl
  | beginThread | closureReturned =>
      simp only [step] at h
      split at h <;> cases h
      exact .inr (.inl rfl)

theorem closures_recv (h : s.step .recv = some t) :
    ∃ f, s.worker = .recv ∧ t.worker = .running f ∧ s.channel.items.head? = some f ∧
      s.closures = f :: t.closures := by
  simp only [step] at h
  split at h
  · rename_i hw
    obtain ⟨⟨f, q⟩, hq, rfl⟩ := Option.map_eq_some_iff.mp h
    have hitems := Fifo.pop_eq_some.mp hq
    refine ⟨f, hw, rfl, ?_, ?_⟩
    · rw [hitems, List.head?_cons]
    · rw [closures, hitems, List.cons_append]
      rfl
  · cases h

end Threadpool

/-- The closure of the operation `i`. -/
def closureOf (i : ℕ) (p : ℕ × Child Payload) : Option (Child Payload) :=
  if p.1 = i then some p.2 else none

/-- The operation `i`, whose `Parent` is `u`, without the others. -/
def Operations.alone (s : Operations Payload Args R Waker) (i : ℕ)
    (u : Operation Payload Args R Waker) : Overlapped Payload Args R Waker :=
  { u.front with
    pool := s.pool.part s.owners i (s.threadpool.closures.filterMap (closureOf i)) }

end Kiruna.Stream
