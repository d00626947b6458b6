import Kiruna.Transition.Population
import Kiruna.Transition.Lts

/-!
# The single-threaded executor

`sync::Executor` keeps its tasks in a vector of slots and is driven by handles that arrive on an
unbounded channel: one from `spawn`, one from every wake. A slot is emptied when its task is ready
and is never used again. Handles and the number of active tasks are 16-bit; `checked` says whether
the build checks its arithmetic for overflow, in which case an overflow is a panic.

Wakes are steps of their own and may come between any two steps of the executor.
-/

namespace Kiruna.Sync

/-- `Handle(u16)`. -/
structure Handle where
  index : UInt16
  deriving DecidableEq

/-- The method whose loop is running. -/
inductive Method
  | doSome
  | drain
  deriving DecidableEq

/-- Where the thread of the executor stands: in `take` a future that was ready is being destroyed,
and in `leaving` the loop of `drain` has ended, or a panic unwinds out of it, and the executor has
still to be dropped. `dropped` is an executor that is gone without having been drained to the
end. -/
inductive ExecutorPc
  | idle
  | recv (m : Method)
  | wakeup (m : Method) (w : Handle)
  | poll (m : Method) (w : Handle)
  | take (m : Method) (w : Handle)
  | leaving (panicking : Bool)
  | drained
  | dropped
  deriving DecidableEq

/-- `wakers` are the handles for which a `Wake` was made, and `sent` is the record of the handles
that `spawn` sent, in the order of the spawns. -/
structure Executor (F : Type*) where
  channel : List Handle
  tasks : List (Option F)
  numActive : UInt16
  pc : ExecutorPc
  wakers : List Handle
  sent : List (F × Handle)
  deriving DecidableEq

/-- `drain` returns, or has returned. -/
def ExecutorPc.Returns (p : ExecutorPc) : Prop := p = .leaving false ∨ p = .drained

/-- One step of the executor's thread or of a thread that wakes. `dropReceiver` begins the drop of
the executor at the end of `drain`, and `wakePanicked` is a wake whose send finds the receiver
gone. -/
inductive ExecutorLabel (F : Type*)
  | spawn (f : F)
  | doSome
  | drain
  | dropExecutor
  | recv (w : Handle)
  | recvEmpty
  | skip (w : Handle)
  | poll (w : Handle)
  | ready (w : Handle)
  | taken (w : Handle)
  | pending (w : Handle)
  | panicked (w : Handle)
  | dropReceiver
  | wake (w : Handle)
  | wakePanicked (w : Handle)
  deriving DecidableEq

namespace Executor

variable {F : Type*}

def new : Executor F where
  channel := []
  tasks := []
  numActive := 0
  pc := .idle
  wakers := []
  sent := []

/-- `n + 1`, or a panic. -/
def increment (checked : Bool) (n : UInt16) : Option UInt16 :=
  if checked ∧ n = 65535 then none else some (n + 1)

/-- `n - 1`, or a panic. -/
def decrement (checked : Bool) (n : UInt16) : Option UInt16 :=
  if checked ∧ n = 0 then none else some (n - 1)

/-- `Handle(self.tasks.len() as u16)`. -/
def newHandle (s : Executor F) : Handle := ⟨UInt16.ofNat s.tasks.length⟩

/-- `Executor::spawn`. A panic of the increment comes after the push and before the send. -/
def spawn (checked : Bool) (s : Executor F) (f : F) : Executor F :=
  match increment checked s.numActive with
  | none => { s with tasks := s.tasks ++ [some f] }
  | some n => { s with
      tasks := s.tasks ++ [some f]
      numActive := n
      channel := s.channel ++ [s.newHandle]
      sent := s.sent ++ [(f, s.newHandle)] }

/-- After `do_a_wakeup`: `do_some` receives again, `drain` first looks at the active count. -/
def afterWakeup (m : Method) (n : UInt16) : ExecutorPc :=
  match m with
  | .doSome => .recv .doSome
  | .drain => if n = 0 then .leaving false else .recv .drain

/-- A panic unwinds out of `do_some`; `drain` owns the executor and drops it. -/
def unwound : Method → ExecutorPc
  | .doSome => .idle
  | .drain => .leaving true

/-- The slot a handle designates. -/
def slot (s : Executor F) (w : Handle) : Option (Option F) := s.tasks[w.index.toNat]?

/-- The receiver is the first field of the executor, so it is dropped before the tasks are. -/
def receiverAlive (s : Executor F) : Bool := s.pc ≠ .drained ∧ s.pc ≠ .dropped

def step (checked : Bool) (s : Executor F) : ExecutorLabel F → Option (Executor F)
  | .spawn f => if s.pc = .idle then some (s.spawn checked f) else none
  | .doSome => if s.pc = .idle then some { s with pc := .recv .doSome } else none
  | .drain =>
      if s.pc = .idle then
        some { s with pc := if s.numActive = 0 then .leaving false else .recv .drain }
      else none
  | .dropExecutor => if s.pc = .idle then some { s with pc := .dropped } else none
  | .recv w =>
      match s.pc, s.channel with
      | .recv m, w' :: rest =>
          if w' = w then some { s with channel := rest, pc := .wakeup m w } else none
      | _, _ => none
  | .recvEmpty =>
      if s.pc = .recv .doSome ∧ s.channel = [] then some { s with pc := .idle } else none
  | .skip w =>
      match s.pc, s.slot w with
      | .wakeup m w', some none =>
          if w' = w then some { s with pc := afterWakeup m s.numActive } else none
      | _, _ => none
  | .poll w =>
      match s.pc, s.slot w with
      | .wakeup m w', some (some _) =>
          if w' = w then some { s with pc := .poll m w, wakers := s.wakers ++ [w] } else none
      | _, _ => none
  | .ready w =>
      match s.pc with
      | .poll m w' =>
          if w' = w then
            match decrement checked s.numActive with
            | none => some { s with pc := unwound m }
            | some n => some { s with
                numActive := n
                tasks := s.tasks.set w.index.toNat none
                pc := .take m w }
          else none
      | _ => none
  | .taken w =>
      match s.pc with
      | .take m w' =>
          if w' = w then some { s with pc := afterWakeup m s.numActive } else none
      | _ => none
  | .pending w =>
      match s.pc with
      | .poll m w' =>
          if w' = w then some { s with pc := afterWakeup m s.numActive } else none
      | _ => none
  | .panicked w =>
      match s.pc, s.slot w with
      | .poll m w', _ => if w' = w then some { s with pc := unwound m } else none
      | .take m w', _ => if w' = w then some { s with pc := unwound m } else none
      | .wakeup m w', none => if w' = w then some { s with pc := unwound m } else none
      | _, _ => none
  | .dropReceiver =>
      match s.pc with
      | .leaving panicking => some { s with pc := if panicking then .dropped else .drained }
      | _ => none
  | .wake w =>
      if w ∈ s.wakers ∧ s.receiverAlive then some { s with channel := s.channel ++ [w] } else none
  | .wakePanicked w => if w ∈ s.wakers ∧ ¬ s.receiverAlive then some s else none

def system (F : Type*) (checked : Bool) : Lts (Executor F) (ExecutorLabel F) where
  init := new
  step := step checked

/-- The branches of a step that succeeds. -/
inductive Steps (checked : Bool) (s : Executor F) : ExecutorLabel F → Executor F → Prop
  | spawn (f : F) (hpc : s.pc = .idle) : Steps checked s (.spawn f) (s.spawn checked f)
  | doSome (hpc : s.pc = .idle) : Steps checked s .doSome { s with pc := .recv .doSome }
  | drain (hpc : s.pc = .idle) (hn : s.numActive ≠ 0) :
      Steps checked s .drain { s with pc := .recv .drain }
  | drainNone (hpc : s.pc = .idle) (hn : s.numActive = 0) :
      Steps checked s .drain { s with pc := .leaving false }
  | dropExecutor (hpc : s.pc = .idle) : Steps checked s .dropExecutor { s with pc := .dropped }
  | recv {m : Method} {w : Handle} {rest : List Handle}
      (hpc : s.pc = .recv m) (hc : s.channel = w :: rest) :
      Steps checked s (.recv w) { s with channel := rest, pc := .wakeup m w }
  | recvEmpty (hpc : s.pc = .recv .doSome) : Steps checked s .recvEmpty { s with pc := .idle }
  | skip {m : Method} {w : Handle} (hpc : s.pc = .wakeup m w) (hf : s.slot w = some none) :
      Steps checked s (.skip w) { s with pc := afterWakeup m s.numActive }
  | poll {m : Method} {w : Handle} {f : F}
      (hpc : s.pc = .wakeup m w) (hf : s.slot w = some (some f)) :
      Steps checked s (.poll w) { s with pc := .poll m w, wakers := s.wakers ++ [w] }
  | ready {m : Method} {w : Handle} {n : UInt16}
      (hpc : s.pc = .poll m w) (hn : decrement checked s.numActive = some n) :
      Steps checked s (.ready w) { s with
        numActive := n, tasks := s.tasks.set w.index.toNat none, pc := .take m w }
  | underflow {m : Method} {w : Handle} (hpc : s.pc = .poll m w) (hn : s.numActive = 0) :
      Steps checked s (.ready w) { s with pc := unwound m }
  | taken {m : Method} {w : Handle} (hpc : s.pc = .take m w) :
      Steps checked s (.taken w) { s with pc := afterWakeup m s.numActive }
  | pending {m : Method} {w : Handle} (hpc : s.pc = .poll m w) :
      Steps checked s (.pending w) { s with pc := afterWakeup m s.numActive }
  | panicked {m : Method} {w : Handle} (hpc : s.pc = .poll m w ∨ s.pc = .take m w) :
      Steps checked s (.panicked w) { s with pc := unwound m }
  | outOfRange {m : Method} {w : Handle} (hpc : s.pc = .wakeup m w) (hf : s.slot w = none) :
      Steps checked s (.panicked w) { s with pc := unwound m }
  | dropReceiver {panicking : Bool} (hpc : s.pc = .leaving panicking) :
      Steps checked s .dropReceiver { s with pc := if panicking then .dropped else .drained }
  | wake {w : Handle} (hw : w ∈ s.wakers) (hr : s.receiverAlive = true) :
      Steps checked s (.wake w) { s with channel := s.channel ++ [w] }
  | wakePanicked {w : Handle} (hgone : s.pc = .drained ∨ s.pc = .dropped) :
      Steps checked s (.wakePanicked w) s

theorem steps_of_step {checked : Bool} {s t : Executor F} {a : ExecutorLabel F}
    (h : (system F checked).step s a = some t) : Steps checked s a t := by
  change s.step checked a = some t at h
  cases a with
  | spawn f =>
      simp only [step] at h
      split_ifs at h with hpc
      cases h
      exact .spawn f hpc
  | doSome =>
      simp only [step] at h
      split_ifs at h with hpc
      cases h
      exact .doSome hpc
  | drain =>
      simp only [step] at h
      split_ifs at h with hpc hn <;> cases h
      · exact .drainNone hpc hn
      · exact .drain hpc hn
  | dropExecutor =>
      simp only [step] at h
      split_ifs at h with hpc
      cases h
      exact .dropExecutor hpc
  | recv w =>
      simp only [step] at h
      split at h
      · rename_i m w' rest hpc hc
        split_ifs at h with hw
        subst hw
        cases h
        exact .recv hpc hc
      · cases h
  | recvEmpty =>
      simp only [step] at h
      split_ifs at h with hpc
      cases h
      exact .recvEmpty hpc.1
  | skip w =>
      simp only [step] at h
      split at h
      · rename_i m w' hpc hf
        split_ifs at h with hw
        subst hw
        cases h
        exact .skip hpc hf
      · cases h
  | poll w =>
      simp only [step] at h
      split at h
      · rename_i m w' f hpc hf
        split_ifs at h with hw
        subst hw
        cases h
        exact .poll hpc hf
      · cases h
  | ready w =>
      simp only [step] at h
      split at h
      · rename_i m w' hpc
        split_ifs at h with hw
        subst hw
        split at h <;> cases h
        · rename_i hn
          refine .underflow hpc ?_
          unfold decrement at hn
          split_ifs at hn with hc
          exact hc.2
        · exact .ready hpc ‹_›
      · cases h
  | taken w =>
      simp only [step] at h
      split at h
      · rename_i m w' hpc
        split_ifs at h with hw
        subst hw
        cases h
        exact .taken hpc
      · cases h
  | pending w =>
      simp only [step] at h
      split at h
      · rename_i m w' hpc
        split_ifs at h with hw
        subst hw
        cases h
        exact .pending hpc
      · cases h
  | panicked w =>
      simp only [step] at h
      split at h
      · rename_i m w' hpc
        split_ifs at h with hw
        subst hw
        cases h
        exact .panicked (.inl hpc)
      · rename_i m w' hpc
        split_ifs at h with hw
        subst hw
        cases h
        exact .panicked (.inr hpc)
      · rename_i m w' hpc hf
        split_ifs at h with hw
        subst hw
        cases h
        exact .outOfRange hpc hf
      · cases h
  | dropReceiver =>
      simp only [step] at h
      split at h
      · cases h
        exact .dropReceiver ‹_›
      · cases h
  | wake w =>
      simp only [step] at h
      split_ifs at h with hw
      cases h
      exact .wake hw.1 hw.2
  | wakePanicked w =>
      simp only [step] at h
      split_ifs at h with hw
      cases h
      refine .wakePanicked ?_
      by_contra hn
      exact hw.2 (by simpa [receiverAlive, not_or] using hn)

/-- The labels that change nothing but where the executor's thread stands. -/
def Moves : ExecutorLabel F → Prop
  | .doSome | .drain | .dropExecutor | .recvEmpty | .skip _ | .taken _ | .pending _ | .panicked _
  | .dropReceiver | .wakePanicked _ => True
  | _ => False

/-- What one step can do. A move leaves `wakeup` only past a slot that holds no task, and it never
enters `wakeup` or `poll`. -/
inductive Effect (checked : Bool) (s : Executor F) : ExecutorLabel F → Executor F → Prop
  | spawn (f : F) (hpc : s.pc = .idle) : Effect checked s (.spawn f) (s.spawn checked f)
  | recv {m : Method} {w : Handle} {rest : List Handle}
      (hpc : s.pc = .recv m) (hc : s.channel = w :: rest) :
      Effect checked s (.recv w) { s with channel := rest, pc := .wakeup m w }
  | poll {m : Method} {w : Handle} {f : F}
      (hpc : s.pc = .wakeup m w) (hf : s.slot w = some (some f)) :
      Effect checked s (.poll w) { s with pc := .poll m w, wakers := s.wakers ++ [w] }
  | ready {m : Method} {w : Handle} {n : UInt16}
      (hpc : s.pc = .poll m w) (hn : decrement checked s.numActive = some n) :
      Effect checked s (.ready w) { s with
        numActive := n, tasks := s.tasks.set w.index.toNat none, pc := .take m w }
  | underflow {m : Method} {w : Handle} (hpc : s.pc = .poll m w) (hn : s.numActive = 0) :
      Effect checked s (.ready w) { s with pc := unwound m }
  | wake {w : Handle} (hw : w ∈ s.wakers) (hr : s.receiverAlive = true) :
      Effect checked s (.wake w) { s with channel := s.channel ++ [w] }
  | move {a : ExecutorLabel F} {p : ExecutorPc} (ha : Moves a)
      (hfrom : ∀ m w f, s.pc = .wakeup m w → s.slot w ≠ some (some f))
      (hto : ∀ m w, p ≠ .wakeup m w ∧ p ≠ .poll m w)
      (hreturns : p.Returns → s.pc.Returns ∨ s.numActive = 0) :
      Effect checked s a { s with pc := p }

theorem afterWakeup_ne (m m' : Method) (n : UInt16) (w : Handle) :
    afterWakeup m n ≠ .wakeup m' w ∧ afterWakeup m n ≠ .poll m' w := by
  cases m with
  | doSome => simp [afterWakeup]
  | drain =>
      unfold afterWakeup
      dsimp only
      split_ifs <;> simp

theorem afterWakeup_receiverAlive (m : Method) (n : UInt16) :
    afterWakeup m n ≠ .drained ∧ afterWakeup m n ≠ .dropped := by
  cases m with
  | doSome => simp [afterWakeup]
  | drain =>
      unfold afterWakeup
      dsimp only
      split_ifs <;> simp

theorem afterWakeup_returns {m : Method} {n : UInt16} (h : (afterWakeup m n).Returns) : n = 0 := by
  cases m with
  | doSome => simp [afterWakeup, ExecutorPc.Returns] at h
  | drain =>
      by_contra hn
      simp [afterWakeup, hn, ExecutorPc.Returns] at h

theorem unwound_ne (m m' : Method) (w : Handle) :
    unwound m ≠ .wakeup m' w ∧ unwound m ≠ .poll m' w ∧ ¬ (unwound m).Returns := by
  cases m <;> simp [unwound, ExecutorPc.Returns]

/-- A move past a slot that holds no task. -/
theorem effect_of_wakeup {checked : Bool} {s : Executor F} {a : ExecutorLabel F} {m : Method}
    {w : Handle} {p : ExecutorPc} (ha : Moves a) (hpc : s.pc = .wakeup m w)
    (hf : ∀ f, s.slot w ≠ some (some f)) (hto : ∀ m w, p ≠ .wakeup m w ∧ p ≠ .poll m w)
    (hreturns : p.Returns → s.numActive = 0) : Effect checked s a { s with pc := p } := by
  refine .move ha ?_ hto fun hp => .inr (hreturns hp)
  intro m' w' f hpc'
  obtain ⟨rfl, rfl⟩ : m = m' ∧ w = w' := by simpa [hpc] using hpc'
  exact hf f

theorem effect_of_step {checked : Bool} {s t : Executor F} {a : ExecutorLabel F}
    (h : (system F checked).step s a = some t) : Effect checked s a t := by
  cases steps_of_step h with
  | spawn f hpc => exact .spawn f hpc
  | doSome hpc | drain hpc | dropExecutor hpc | recvEmpty hpc =>
      exact .move trivial (by simp [hpc]) (by simp) (by simp [ExecutorPc.Returns])
  | drainNone hpc hn => exact .move trivial (by simp [hpc]) (by simp) fun _ => .inr hn
  | recv hpc hc => exact .recv hpc hc
  | @skip m w hpc hf =>
      exact effect_of_wakeup trivial hpc (by simp [hf]) (fun m' w => afterWakeup_ne m m' _ w)
        afterWakeup_returns
  | poll hpc hf => exact .poll hpc hf
  | ready hpc hn => exact .ready hpc hn
  | underflow hpc hn => exact .underflow hpc hn
  | @taken m w hpc | @pending m w hpc =>
      exact .move trivial (by simp [hpc]) (fun m' w => afterWakeup_ne m m' _ w)
        fun hd => .inr (afterWakeup_returns hd)
  | @panicked m w hpc =>
      exact .move trivial (by rcases hpc with hpc | hpc <;> simp [hpc])
        (fun m' w => ⟨(unwound_ne m m' w).1, (unwound_ne m m' w).2.1⟩)
        fun hd => absurd hd (unwound_ne m m w).2.2
  | @outOfRange m w hpc hf =>
      exact effect_of_wakeup trivial hpc (by simp [hf])
        (fun m' w => ⟨(unwound_ne m m' w).1, (unwound_ne m m' w).2.1⟩)
        fun hd => absurd hd (unwound_ne m m w).2.2
  | @dropReceiver panicking hpc =>
      refine .move trivial (by simp [hpc]) (by cases panicking <;> simp) fun hd => .inl ?_
      cases panicking with
      | false => exact .inl hpc
      | true => simp [ExecutorPc.Returns] at hd
  | wake hw hr => exact .wake hw hr
  | wakePanicked hgone =>
      refine .move (p := s.pc) trivial ?_ ?_ fun hd => .inl hd
      · intro m w' f hpc
        rcases hgone with hd | hd <;> simp [hd] at hpc
      · intro m w'
        rcases hgone with hd | hd <;> simp [hd]

end Executor
end Kiruna.Sync
