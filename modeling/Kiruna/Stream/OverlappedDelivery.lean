import Kiruna.Stream.Overlapped

/-!
# The delivery of an overlapped result

The rounds of a payload are its call of `begin_op` and the calls of `resume_op` with the completions
that the system has reported. At each moment one party has the box, and which one it is fixes the
whole state of the pool; what the parent can see is fixed by whether `ready` has been called and
whether the result has been taken. Every step goes from one of these states to another.
-/

namespace Kiruna.Stream

section Rounds

variable {Payload Args Ok Failure Os : Type*} (P : PayloadTrait Payload Args Ok Failure Os)
  (handle hEvent : Handle) (payload : Payload)

/-- The payload waits for a completion, after the completions of the list. -/
inductive Rounds : Payload → Args → List (Args × UInt32 × UInt32) → Prop
  | begin {os : Os} {p : Payload} {args : Args}
      (h : P.beginOp payload handle hEvent os = ⟨p, .pending, [⟨hEvent, args⟩]⟩) :
      Rounds p args []
  | resume {os : Os} {p p' : Payload} {args args' : Args} {done : List (Args × UInt32 × UInt32)}
      {e b : UInt32} (hp : Rounds p args done)
      (h : P.resumeOp p e b handle hEvent os = ⟨p', .pending, [⟨hEvent, args'⟩]⟩) :
      Rounds p' args' (done ++ [(args, e, b)])

/-- The payload has returned `Ready` after the completions of the list. -/
inductive Resolved : Except Failure Ok → List (Args × UInt32 × UInt32) → Prop
  | begin {os : Os} {p : Payload} {r : Except Failure Ok}
      (h : P.beginOp payload handle hEvent os = ⟨p, .ready r, []⟩) : Resolved r []
  | resume {os : Os} {p p' : Payload} {args : Args} {done : List (Args × UInt32 × UInt32)}
      {e b : UInt32} {r : Except Failure Ok} (hp : Rounds P handle hEvent payload p args done)
      (h : P.resumeOp p e b handle hEvent os = ⟨p', .ready r, []⟩) :
      Resolved r (done ++ [(args, e, b)])

variable {P handle hEvent payload} {R : Type*}

theorem honours_cases {o : OpResult Payload Args R} (h : o.Honours hEvent) :
    (∃ p args, o = ⟨p, .pending, [⟨hEvent, args⟩]⟩) ∨ ∃ p r, o = ⟨p, .ready r, []⟩ := by
  obtain ⟨p, poll, calls⟩ := o
  cases poll with
  | pending =>
      obtain ⟨args, rfl⟩ := h
      exact .inl ⟨p, args, rfl⟩
  | ready r =>
      obtain rfl : calls = [] := h
      exact .inr ⟨p, r, rfl⟩

end Rounds

namespace Overlapped

variable {Payload Args Ok Failure Os Waker : Type*}

/-- Who has the box of an operation that has been polled: the state of the pool, with the
completions that were reported and the results with which `ready` was called. -/
inductive Phase (P : PayloadTrait Payload Args Ok Failure Os) (handle : Handle)
    (payload : Payload) : Pool Payload Args (Except Failure Ok) →
      List (Args × UInt32 × UInt32) → List (Except Failure Ok) → Prop
  | queued : Phase P handle payload ⟨[⟨handle, payload⟩], [], [], .idle, false⟩ [] []
  | begins : Phase P handle payload
      ⟨[], [.owned ⟨handle, payload⟩], [], .beginOp 0, false⟩ [] []
  | outstanding {p : Payload} {args : Args} {done : List (Args × UInt32 × UInt32)}
      (hp : Rounds P handle 0 payload p args done) :
      Phase P handle payload ⟨[], [.raw ⟨handle, p⟩], [⟨0, args⟩], .idle, false⟩ done []
  | resumes {p : Payload} {args : Args} {done : List (Args × UInt32 × UInt32)} {e b : UInt32}
      (hp : Rounds P handle 0 payload p args done) :
      Phase P handle payload ⟨[], [.raw ⟨handle, p⟩], [], .resumeOp 0 e b, false⟩
        (done ++ [(args, e, b)]) []
  | readiesEarly {p : Payload} {r : Except Failure Ok} {done : List (Args × UInt32 × UInt32)}
      (hr : Resolved P handle 0 payload r done) :
      Phase P handle payload ⟨[], [.raw ⟨handle, p⟩], [], .ready .beginOp 0 r, false⟩ done []
  | readies {p : Payload} {r : Except Failure Ok} {done : List (Args × UInt32 × UInt32)}
      (hr : Resolved P handle 0 payload r done) :
      Phase P handle payload ⟨[], [.owned ⟨handle, p⟩], [], .ready .completion 0 r, false⟩ done []
  | dropsEarly {p : Payload} {r : Except Failure Ok} {done : List (Args × UInt32 × UInt32)}
      (hr : Resolved P handle 0 payload r done) :
      Phase P handle payload ⟨[], [.raw ⟨handle, p⟩], [], .drop .beginOp 0, false⟩ done [r]
  | drops {p : Payload} {r : Except Failure Ok} {done : List (Args × UInt32 × UInt32)}
      (hr : Resolved P handle 0 payload r done) :
      Phase P handle payload ⟨[], [.owned ⟨handle, p⟩], [], .drop .completion 0, false⟩ done [r]
  | freed {r : Except Failure Ok} {done : List (Args × UInt32 × UInt32)}
      (hr : Resolved P handle 0 payload r done) :
      Phase P handle payload ⟨[], [.freed], [], .idle, false⟩ done [r]

/-- What the parent sees of a polled operation: the shared part and the waker of the last poll, the
wakes, the results with which `ready` was called and those that were returned. -/
inductive Answer {R : Type*} : Shared Waker R → Waker → List Waker → List R → List R → Prop
  | pending (w : Waker) : Answer ⟨w, .poll .pending⟩ w [] [] []
  | stored (w : Waker) (r : R) : Answer ⟨w, .poll (.ready r)⟩ w [w] [r] []
  | taken (w w' : Waker) (r : R) : Answer ⟨w, .gone⟩ w' [w] [r] [r]

/-- The invariant: nothing has happened before the first poll, and then the phases and the answers
are the only states. -/
inductive Inv (P : PayloadTrait Payload Args Ok Failure Os) (handle : Handle)
    (payload : Payload) : Overlapped Payload Args (Except Failure Ok) Waker → Prop
  | unpolled {parent : ParentState Payload}
      (hparent : parent = .notPolled payload ∨ parent = .dropped) :
      Inv P handle payload ⟨handle, parent, none, .new, none, [], [], [], []⟩
  | polled {parent : ParentState Payload} {shared : Shared Waker (Except Failure Ok)}
      {pool : Pool Payload Args (Except Failure Ok)} {w : Waker} {woken : List Waker}
      {readied returned : List (Except Failure Ok)} {done : List (Args × UInt32 × UInt32)}
      (hparent : parent = .polled ∨ parent = .dropped)
      (hphase : Phase P handle payload pool done readied)
      (hanswer : Answer shared w woken readied returned) :
      Inv P handle payload
        ⟨handle, parent, some shared, pool, some w, woken, readied, returned, done⟩

variable {P : PayloadTrait Payload Args Ok Failure Os} {handle : Handle} {payload : Payload}
  {s t : Overlapped Payload Args (Except Failure Ok) Waker} {a : OverlappedLabel Waker Os}
  {h : List (OverlappedLabel Waker Os)}

theorem Inv.poll (hs : Inv P handle payload s) (hok : s.returned = []) {w : Waker}
    (h : s.poll w = some t) : Inv P handle payload t := by
  cases hs with
  | unpolled hparent =>
      rcases hparent with rfl | rfl
      · cases h
        exact .polled (.inl rfl) .queued (.pending w)
      · cases h
  | polled hparent hphase hanswer =>
      rcases hparent with rfl | rfl
      · cases hanswer with
        | pending w' =>
            cases h
            exact .polled (.inl rfl) hphase (.pending w)
        | stored w' r =>
            cases h
            exact .polled (.inl rfl) hphase (.taken _ w r)
        | taken => cases hok
      · cases h

/-- The early `Ready` of `begin_op`, and its `Pending`. -/
theorem Phase.beginOp {os : Os} :
    Phase P handle payload (Pool.beginOp P ⟨[], [.owned ⟨handle, payload⟩], [], .beginOp 0, false⟩
      0 os) [] [] := by
  rw [Pool.beginOp, List.getElem?_cons_zero]
  rcases honours_cases (P.beginOp_honours payload handle 0 os) with ⟨p, args, ho⟩ | ⟨p, r, ho⟩
  · simp only [ho]
    exact .outstanding (.begin ho)
  · simp only [ho]
    exact .readiesEarly (.begin ho)

theorem Phase.resumeOp {p : Payload} {args : Args} {done : List (Args × UInt32 × UInt32)}
    {e b : UInt32} {os : Os} (hp : Rounds P handle 0 payload p args done) :
    Phase P handle payload (Pool.resumeOp P ⟨[], [.raw ⟨handle, p⟩], [], .resumeOp 0 e b, false⟩
      0 e b os) (done ++ [(args, e, b)]) [] := by
  rw [Pool.resumeOp, List.getElem?_cons_zero]
  rcases honours_cases (P.resumeOp_honours p e b handle 0 os) with ⟨p', args', ho⟩ | ⟨p', r, ho⟩
  · simp only [ho]
    exact .outstanding (.resume hp ho)
  · simp only [ho]
    exact .readies (.resume hp ho)

theorem Inv.step (hs : Inv P handle payload s) (hok : PollsBeforeReady s a)
    (h : s.step P a = some t) : Inv P handle payload t := by
  have hpoll (w : Waker) (hnil : s.returned = []) (hw : s.poll w = some t) :
      Inv P handle payload t := hs.poll hnil hw
  cases hs with
  | unpolled hparent =>
      cases a with
      | poll w => exact hpoll w hok h
      | dropParent =>
          rcases hparent with rfl | rfl <;> cases h
          exact .unpolled (.inr rfl)
      | _ => cases h
  | polled hparent hphase hanswer =>
      cases a with
      | poll w => exact hpoll w hok h
      | dropParent =>
          rcases hparent with rfl | rfl <;> cases h
          exact .polled (.inr rfl) hphase hanswer
      | runClosure =>
          cases hphase with
          | queued =>
              cases h
              exact .polled hparent .begins hanswer
          | _ => cases h
      | beginOp os =>
          cases hphase with
          | begins =>
              cases h
              exact .polled hparent .beginOp hanswer
          | _ => cases h
      | complete i e b =>
          cases hphase with
          | outstanding hp =>
              cases i with
              | zero =>
                  cases h
                  exact .polled hparent (.resumes hp) hanswer
              | succ i => cases h
          | _ => cases h
      | resumeOp os =>
          cases hphase with
          | resumes hp =>
              cases h
              exact .polled hparent (.resumeOp hp) hanswer
          | _ => cases h
      | ready =>
          cases hphase with
          | readiesEarly hr =>
              cases hanswer
              cases h
              exact .polled hparent (.dropsEarly hr) (.stored _ _)
          | readies hr =>
              cases hanswer
              cases h
              exact .polled hparent (.drops hr) (.stored _ _)
          | _ => cases h
      | drop =>
          cases hphase with
          | dropsEarly hr | drops hr =>
              cases h
              exact .polled hparent (.freed hr) hanswer
          | _ => cases h

theorem inv_of_run (hr : (system P handle payload).Run PollsBeforeReady h s) :
    Inv P handle payload s :=
  hr.invariant (P := Inv P handle payload) (fun _ _ _ hs hok hst => hs.step hok hst)
    (.unpolled (.inl rfl))

/-- The queued closure, the outstanding calls and the running callback. -/
def owners {R : Type*} (s : Overlapped Payload Args R Waker) : ℕ :=
  s.pool.queue.length + s.pool.calls.length +
    match s.pool.worker with
    | .idle => 0
    | _ => 1

/-- The number of boxes that have been freed. -/
def freed {R : Type*} (s : Overlapped Payload Args R Waker) : ℕ :=
  weight Cell.isFreed s.pool.boxes

/-- The callback is between its call of `ready` and the drop of the box. -/
def dropping {R : Type*} (s : Overlapped Payload Args R Waker) : ℕ :=
  match s.pool.worker with
  | .drop _ _ => 1
  | _ => 0

/-- What an overlapped operation owes its parent and its box. -/
structure DeliversOnce (P : PayloadTrait Payload Args Ok Failure Os) (handle : Handle)
    (payload : Payload) (s : Overlapped Payload Args (Except Failure Ok) Waker) : Prop where
  fault : s.pool.fault = false
  unpolled : s.shared = none → s.owners = 0 ∧ s.pool.boxes = []
  owner : s.shared ≠ none → s.owners + s.freed = 1
  boxes : s.pool.boxes.length ≤ 1
  freed : s.freed + s.dropping = s.readied.length
  readied : s.readied.length ≤ 1
  resolved : ∀ r ∈ s.readied, Resolved P handle 0 payload r s.completed
  returned : s.returned = [] ∨ s.returned = s.readied
  woken : ∀ shared r, s.shared = some shared → shared.result = .poll (.ready r) →
    ∃ w, s.lastWaker = some w ∧ s.woken = [w]

theorem Inv.resolved (hs : Inv P handle payload s) :
    ∀ r ∈ s.readied, Resolved P handle 0 payload r s.completed := by
  cases hs with
  | unpolled => exact fun _ hr => absurd hr List.not_mem_nil
  | polled _ hphase =>
      cases hphase with
      | dropsEarly hr | drops hr | freed hr =>
          intro r hmem
          rwa [List.mem_singleton.mp hmem]
      | _ => exact fun _ hr => absurd hr List.not_mem_nil

theorem Inv.woken (hs : Inv P handle payload s) :
    ∀ shared r, s.shared = some shared → shared.result = .poll (.ready r) →
      ∃ w, s.lastWaker = some w ∧ s.woken = [w] := by
  intro shared r hshared hresult
  cases hs with
  | unpolled => cases hshared
  | polled _ _ hanswer =>
      cases hshared
      cases hanswer with
      | stored => exact ⟨_, rfl, rfl⟩
      | pending | taken => cases hresult

theorem Inv.returned (hs : Inv P handle payload s) :
    s.returned = [] ∨ s.returned = s.readied := by
  cases hs with
  | unpolled => exact .inl rfl
  | polled _ _ hanswer =>
      cases hanswer with
      | pending | stored => exact .inl rfl
      | taken => exact .inr rfl

theorem deliversOnce_of_run (hr : (system P handle payload).Run PollsBeforeReady h s) :
    DeliversOnce P handle payload s := by
  have hs := inv_of_run hr
  have hresolved := hs.resolved
  have hreturned := hs.returned
  have hwoken := hs.woken
  cases hs with
  | unpolled =>
      exact ⟨rfl, fun _ => ⟨rfl, rfl⟩, fun h => absurd rfl h, Nat.zero_le _, rfl, Nat.zero_le _,
        hresolved, hreturned, hwoken⟩
  | polled _ hphase =>
      cases hphase <;>
        exact ⟨rfl, nofun, fun _ => rfl, by simp, rfl, by simp, hresolved, hreturned, hwoken⟩

instance {R : Type*} : ∀ (s : Overlapped Payload Args R Waker) (a : OverlappedLabel Waker Os),
    Decidable (PollsBeforeReady s a)
  | s, .poll _ => decidable_of_iff (s.returned.isEmpty = true) List.isEmpty_iff
  | _, .dropParent | _, .runClosure | _, .beginOp _ | _, .complete _ _ _ | _, .resumeOp _
  | _, .ready | _, .drop => isTrue trivial

/-- A read of two bytes and of the end of a pipe. It is polled by three tasks in turn. -/
def readTwoBytes : List (OverlappedLabel ℕ ReadOs) :=
  [.poll 1, .runClosure, .beginOp ⟨none, fun _ => 0⟩, .poll 2, .complete 0 0 2,
    .resumeOp ⟨none, fun i => if i = 0 then 104 else 105⟩, .complete 0 109 0,
    .resumeOp ⟨none, fun _ => 0⟩, .ready, .poll 3, .drop]

theorem deliversOnce_readTwoBytes :
    DeliversOnce ReadChild.payloadTrait 7 ⟨[]⟩ (⟨7, .polled, some ⟨2, .gone⟩,
      ⟨[], [.freed], [], .idle, false⟩, some 3, [2], [.error (⟨109⟩, ⟨[104, 105]⟩)],
      [.error (⟨109⟩, ⟨[104, 105]⟩)], [(⟨7, 0, 255⟩, 0, 2), (⟨7, 2, 255⟩, 109, 0)]⟩ :
      Overlapped Buffer ReadFileEx (Except (OSError × Buffer) Buffer) ℕ) :=
  deliversOnce_of_run (Lts.path_of_exec readTwoBytes rfl)

end Overlapped
end Kiruna.Stream
