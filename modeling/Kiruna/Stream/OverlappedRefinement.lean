import Kiruna.Stream.Overlapped

/-!
# Payloads that refine others

Two payloads with the same results make the same operation if their calls are the same but for a
map of the payloads and of the arguments. A run of the one is then a run of the other, with the same
history.
-/

namespace Kiruna.Stream

variable {Payload Payload' Args Args' Ok Failure Os Waker R : Type*} (f : Payload → Payload')
  (g : Args → Args')

def OsCall.map (c : OsCall Args) : OsCall Args' := ⟨c.hEvent, g c.args⟩

def OpResult.map (o : OpResult Payload Args R) : OpResult Payload' Args' R :=
  ⟨f o.payload, o.poll, o.calls.map (OsCall.map g)⟩

def Child.map (c : Child Payload) : Child Payload' := ⟨c.handle, f c.payload⟩

def Cell.map {α β : Type*} (f : α → β) : Cell α → Cell β
  | .owned a => .owned (f a)
  | .raw a => .raw (f a)
  | .freed => .freed

def Pool.map (s : Pool Payload Args R) : Pool Payload' Args' R where
  queue := s.queue.map (Child.map f)
  boxes := s.boxes.map (Cell.map (Child.map f))
  calls := s.calls.map (OsCall.map g)
  worker := s.worker
  fault := s.fault

def ParentState.map : ParentState Payload → ParentState Payload'
  | .notPolled payload => .notPolled (f payload)
  | .polled => .polled
  | .panicked => .panicked
  | .dropped => .dropped

namespace Overlapped

def map (s : Overlapped Payload Args R Waker) : Overlapped Payload' Args' R Waker where
  handle := s.handle
  parent := s.parent.map f
  shared := s.shared
  pool := s.pool.map f g
  lastWaker := s.lastWaker
  woken := s.woken
  readied := s.readied
  returned := s.returned
  completed := s.completed.map fun c => (g c.1, c.2)

end Overlapped

variable {f g} {P : PayloadTrait Payload Args Ok Failure Os}
  {Q : PayloadTrait Payload' Args' Ok Failure Os}

namespace Pool

theorem boxes_map (s : Pool Payload Args R) (raw : Handle) :
    (s.map f g).boxes[raw]? = s.boxes[raw]?.map (Cell.map (Child.map f)) :=
  List.getElem?_map ..

theorem beginOp_map {s : Pool Payload Args (Except Failure Ok)} {raw : Handle} {os : Os}
    (h : ∀ c, s.boxes[raw]? = some (.owned c) →
      Q.beginOp (f c.payload) c.handle raw os = (P.beginOp c.payload c.handle raw os).map f g) :
    (s.map f g).beginOp Q raw os = (s.beginOp P raw os).map f g := by
  unfold beginOp
  rw [boxes_map]
  cases hcell : s.boxes[raw]? with
  | none => rfl
  | some cell =>
      cases cell with
      | owned c =>
          simp only [Option.map_some, Cell.map, Child.map, h c hcell]
          cases hpoll : (P.beginOp c.payload c.handle raw os).poll <;>
            simp [map, OpResult.map, hpoll, Cell.map, Child.map]
      | raw c => rfl
      | freed => rfl

theorem resumeOp_map {s : Pool Payload Args (Except Failure Ok)} {raw : Handle} {e b : UInt32}
    {os : Os} (h : ∀ c, s.boxes[raw]? = some (.raw c) →
      Q.resumeOp (f c.payload) e b c.handle raw os =
        (P.resumeOp c.payload e b c.handle raw os).map f g) :
    (s.map f g).resumeOp Q raw e b os = (s.resumeOp P raw e b os).map f g := by
  unfold resumeOp
  rw [boxes_map]
  cases hcell : s.boxes[raw]? with
  | none => rfl
  | some cell =>
      cases cell with
      | raw c =>
          simp only [Option.map_some, Cell.map, Child.map, h c hcell]
          cases hpoll : (P.resumeOp c.payload e b c.handle raw os).poll <;>
            simp [map, OpResult.map, hpoll, Cell.map, Child.map]
      | owned c => rfl
      | freed => rfl

theorem drop_map (s : Pool Payload Args R) (caller : Caller) (raw : Handle) :
    (s.map f g).drop caller raw = (s.drop caller raw).map f g := by
  unfold drop
  rw [boxes_map]
  cases s.boxes[raw]? with
  | none => cases caller <;> rfl
  | some cell => cases caller <;> cases cell <;> simp [map, faulted, Cell.map]

end Pool

namespace Overlapped

theorem poll_map (s : Overlapped Payload Args R Waker) (w : Waker) :
    (s.map f g).poll w = (s.poll w).map (map f g) := by
  obtain ⟨handle, parent, shared, pool, lastWaker, woken, readied, returned, completed⟩ := s
  cases parent with
  | notPolled payload => simp [map, poll, ParentState.map, Pool.map, Child.map]
  | polled =>
      cases shared with
      | none => rfl
      | some shared =>
          obtain ⟨waker, result⟩ := shared
          cases result with
          | poll p => cases p <;> rfl
          | gone => rfl
  | panicked => rfl
  | dropped => rfl

/-- The payload of `Q` does what the one of `P` does in the callback that is to run. -/
def Refines (P : PayloadTrait Payload Args Ok Failure Os)
    (Q : PayloadTrait Payload' Args' Ok Failure Os) (f : Payload → Payload') (g : Args → Args')
    (s : Overlapped Payload Args (Except Failure Ok) Waker) : OverlappedLabel Waker Os → Prop
  | .beginOp os => ∀ raw c, s.pool.worker = .beginOp raw → s.pool.boxes[raw]? = some (.owned c) →
      Q.beginOp (f c.payload) c.handle raw os = (P.beginOp c.payload c.handle raw os).map f g
  | .resumeOp os => ∀ raw e b c, s.pool.worker = .resumeOp raw e b →
      s.pool.boxes[raw]? = some (.raw c) →
      Q.resumeOp (f c.payload) e b c.handle raw os =
        (P.resumeOp c.payload e b c.handle raw os).map f g
  | _ => True

theorem Pool.map_worker {R : Type*} (pool : Pool Payload Args R) :
    (pool.map f g).worker = pool.worker := rfl

theorem map_pool (s : Overlapped Payload Args (Except Failure Ok) Waker) :
    (s.map f g).pool = s.pool.map f g := rfl

theorem step_map {s : Overlapped Payload Args (Except Failure Ok) Waker}
    {a : OverlappedLabel Waker Os} (h : s.Refines P Q f g a) :
    (s.map f g).step Q a = (s.step P a).map (map f g) := by
  cases a with
  | poll w => exact poll_map s w
  | dropParent =>
      simp only [step, map]
      cases s.parent <;> rfl
  | runClosure =>
      simp only [step, map, Pool.map]
      cases s.pool.worker <;> cases s.pool.queue <;> simp [Child.map, Cell.map, Pool.map, map]
  | beginOp os =>
      simp only [step, map_pool, Pool.map_worker]
      cases hw : s.pool.worker with
      | beginOp raw =>
          simp only [Pool.beginOp_map (h raw · hw)]
          rfl
      | _ => rfl
  | complete i e b =>
      simp only [step, map, Pool.map, List.getElem?_map]
      cases s.pool.worker with
      | idle =>
          cases s.pool.calls[i]? with
          | none => rfl
          | some call =>
              simp [OsCall.map, Pool.map, map, List.eraseIdx_map]
      | _ => rfl
  | resumeOp os =>
      simp only [step, map_pool, Pool.map_worker]
      cases hw : s.pool.worker with
      | resumeOp raw e b =>
          simp only [Pool.resumeOp_map (h raw e b · hw)]
          rfl
      | _ => rfl
  | ready =>
      simp only [step, map, Pool.map]
      cases s.pool.worker <;> cases s.shared <;> rfl
  | drop =>
      simp only [step, map_pool, Pool.map_worker]
      cases s.pool.worker with
      | drop caller raw =>
          simp only [Pool.drop_map]
          rfl
      | _ => rfl

/-- The refinement rule: a run whose calls of the payload agree is a run of the other payload. -/
theorem run_map {ok : Overlapped Payload Args (Except Failure Ok) Waker →
      OverlappedLabel Waker Os → Prop}
    {ok' : Overlapped Payload' Args' (Except Failure Ok) Waker → OverlappedLabel Waker Os → Prop}
    {handle : Handle} {payload : Payload} {h : List (OverlappedLabel Waker Os)}
    {s : Overlapped Payload Args (Except Failure Ok) Waker}
    (hok : ∀ t a, ok t a → ok' (t.map f g) a)
    (href : ∀ h t a, (system P handle payload).Run ok h t → ok t a → t.Refines P Q f g a)
    (hr : (system P handle payload).Run ok h s) :
    (system Q handle (f payload)).Run ok' h (s.map f g) := by
  induction hr with
  | refl => exact .refl
  | @snoc h t u a hr ha hst ih =>
      refine ih.snoc (hok t a ha) ?_
      have hmap := step_map (href h t a hr ha)
      rw [show t.step P a = some u from hst] at hmap
      exact hmap

end Overlapped
end Kiruna.Stream
