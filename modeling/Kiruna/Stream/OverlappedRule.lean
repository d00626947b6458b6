import Kiruna.Stream.OverlappedDelivery

/-!
# The rule of the payload

Between two calls of its payload an operation changes neither the payload nor what the system holds
of it. A property of the payload that `begin_op` establishes and `resume_op` keeps, whatever the
system answers within the condition on the run, therefore holds along every run. The property may
depend on what the history reports of the system.
-/

namespace Kiruna.Stream.Overlapped

variable {Payload Args Ok Failure Os Waker γ : Type*}

/-- Where an operation stands, as its payload sees it. -/
inductive Point (Payload Args R : Type*)
  | before
  | waits (p : Payload) (args : Args)
  | resumes (p : Payload) (args : Args) (errorCode bytesTransferred : UInt32)
  | done (p : Payload) (r : R)

/-- Where a call of the payload leaves the operation. -/
def pointOf {R : Type*} (o : OpResult Payload Args R) : Point Payload Args R :=
  match o.poll, o.calls with
  | .ready r, _ => .done o.payload r
  | .pending, call :: _ => .waits o.payload call.args
  | .pending, [] => .before

/-- The pool, the completions and the results of `ready` at a point. -/
inductive At {R : Type*} (handle : Handle) (payload : Payload) : Pool Payload Args R →
    List (Args × UInt32 × UInt32) → List R → Point Payload Args R → Prop
  | unpolled : At handle payload .new [] [] .before
  | queued : At handle payload ⟨[⟨handle, payload⟩], [], [], .idle, false⟩ [] [] .before
  | begins : At handle payload ⟨[], [.owned ⟨handle, payload⟩], [], .beginOp 0, false⟩ [] [] .before
  | outstanding (p : Payload) (args : Args) (done : List (Args × UInt32 × UInt32)) :
      At handle payload ⟨[], [.raw ⟨handle, p⟩], [⟨0, args⟩], .idle, false⟩ done [] (.waits p args)
  | resumes (p : Payload) (args : Args) (done : List (Args × UInt32 × UInt32)) (e b : UInt32) :
      At handle payload ⟨[], [.raw ⟨handle, p⟩], [], .resumeOp 0 e b, false⟩
        (done ++ [(args, e, b)]) [] (.resumes p args e b)
  | readiesEarly (p : Payload) (r : R) (done : List (Args × UInt32 × UInt32)) :
      At handle payload ⟨[], [.raw ⟨handle, p⟩], [], .ready .beginOp 0 r, false⟩ done [] (.done p r)
  | readies (p : Payload) (r : R) (done : List (Args × UInt32 × UInt32)) :
      At handle payload ⟨[], [.owned ⟨handle, p⟩], [], .ready .completion 0 r, false⟩ done []
        (.done p r)
  | dropsEarly (p : Payload) (r : R) (done : List (Args × UInt32 × UInt32)) :
      At handle payload ⟨[], [.raw ⟨handle, p⟩], [], .drop .beginOp 0, false⟩ done [r] (.done p r)
  | drops (p : Payload) (r : R) (done : List (Args × UInt32 × UInt32)) :
      At handle payload ⟨[], [.owned ⟨handle, p⟩], [], .drop .completion 0, false⟩ done [r]
        (.done p r)
  | freed (p : Payload) (r : R) (done : List (Args × UInt32 × UInt32)) :
      At handle payload ⟨[], [.freed], [], .idle, false⟩ done [r] (.done p r)

/-- The steps that neither call the payload nor complete one of its calls. -/
def Silent : OverlappedLabel Waker Os → Prop
  | .beginOp _ | .complete _ _ _ | .resumeOp _ => False
  | _ => True

/-- What has to be shown of the payload to get the property `T` of every run with `ok`. The report
is what the property takes from the history. -/
structure Rule (P : PayloadTrait Payload Args Ok Failure Os) (handle : Handle) (payload : Payload)
    (ok : Overlapped Payload Args (Except Failure Ok) Waker → OverlappedLabel Waker Os → Prop)
    (report : List (OverlappedLabel Waker Os) → γ)
    (T : γ → Point Payload Args (Except Failure Ok) → Prop) : Prop where
  polls : ∀ s a, ok s a → PollsBeforeReady s a
  silent : ∀ a h, Silent a → report (a :: h) = report h
  start : T (report []) .before
  beginOp : ∀ h s os, T (report h) .before →
    s.pool = ⟨[], [.owned ⟨handle, payload⟩], [], .beginOp 0, false⟩ → ok s (.beginOp os) →
    T (report (.beginOp os :: h)) (pointOf (P.beginOp payload handle 0 os))
  complete : ∀ h s p args e b, T (report h) (.waits p args) →
    s.pool = ⟨[], [.raw ⟨handle, p⟩], [⟨0, args⟩], .idle, false⟩ → ok s (.complete 0 e b) →
    T (report (.complete 0 e b :: h)) (.resumes p args e b)
  resumeOp : ∀ h s os p args e b, T (report h) (.resumes p args e b) →
    s.pool = ⟨[], [.raw ⟨handle, p⟩], [], .resumeOp 0 e b, false⟩ →
    s.completed.getLast? = some (args, e, b) → ok s (.resumeOp os) →
    T (report (.resumeOp os :: h)) (pointOf (P.resumeOp p e b handle 0 os))

variable {P : PayloadTrait Payload Args Ok Failure Os} {handle : Handle} {payload : Payload}
  {ok : Overlapped Payload Args (Except Failure Ok) Waker → OverlappedLabel Waker Os → Prop}
  {report : List (OverlappedLabel Waker Os) → γ}
  {T : γ → Point Payload Args (Except Failure Ok) → Prop}
  {s t : Overlapped Payload Args (Except Failure Ok) Waker} {a : OverlappedLabel Waker Os}
  {h : List (OverlappedLabel Waker Os)} {pt : Point Payload Args (Except Failure Ok)}

/-- The operation stands at a point with the property. -/
def Stands (handle : Handle) (payload : Payload)
    (T : γ → Point Payload Args (Except Failure Ok) → Prop) (g : γ)
    (s : Overlapped Payload Args (Except Failure Ok) Waker) : Prop :=
  ∃ pt, At handle payload s.pool s.completed s.readied pt ∧ T g pt

theorem at_beginOp (os : Os) :
    At handle payload (Pool.beginOp P ⟨[], [.owned ⟨handle, payload⟩], [], .beginOp 0, false⟩ 0 os)
      [] [] (pointOf (P.beginOp payload handle 0 os)) := by
  rw [Pool.beginOp, List.getElem?_cons_zero]
  rcases honours_cases (P.beginOp_honours payload handle 0 os) with ⟨p, args, ho⟩ | ⟨p, r, ho⟩
  · simp only [ho]
    exact .outstanding p args []
  · simp only [ho]
    exact .readiesEarly p r []

theorem at_resumeOp (p : Payload) (args : Args) (done : List (Args × UInt32 × UInt32))
    (e b : UInt32) (os : Os) :
    At handle payload
      (Pool.resumeOp P ⟨[], [.raw ⟨handle, p⟩], [], .resumeOp 0 e b, false⟩ 0 e b os)
      (done ++ [(args, e, b)]) [] (pointOf (P.resumeOp p e b handle 0 os)) := by
  rw [Pool.resumeOp, List.getElem?_cons_zero]
  rcases honours_cases (P.resumeOp_honours p e b handle 0 os) with ⟨p', args', ho⟩ | ⟨p', r, ho⟩
  · simp only [ho]
    exact .outstanding p' args' _
  · simp only [ho]
    exact .readies p' r _

/-- A silent step leaves the operation at its point. -/
theorem At.silent (ha : Silent a) (hs : Inv P handle payload s)
    (hat : At handle payload s.pool s.completed s.readied pt) (hst : s.step P a = some t) :
    At handle payload t.pool t.completed t.readied pt := by
  cases hs with
  | unpolled hparent =>
      cases a with
      | poll w =>
          rcases hparent with rfl | rfl <;> cases hst
          cases hat
          exact .queued
      | dropParent =>
          rcases hparent with rfl | rfl <;> cases hst
          exact hat
      | _ => cases hst
  | polled hparent hphase hanswer =>
      cases a with
      | beginOp | complete | resumeOp => exact ha.elim
      | poll w =>
          rcases hparent with rfl | rfl
          · cases hanswer <;> cases hst <;> exact hat
          · cases hst
      | dropParent =>
          rcases hparent with rfl | rfl <;> cases hst
          exact hat
      | runClosure =>
          cases hat with
          | queued =>
              cases hst
              exact .begins
          | _ => cases hst
      | ready =>
          cases hat with
          | readiesEarly p r =>
              cases hst
              exact .dropsEarly p r _
          | readies p r =>
              cases hst
              exact .drops p r _
          | _ => cases hst
      | drop =>
          cases hat with
          | dropsEarly p r | drops p r =>
              cases hst
              exact .freed p r _
          | _ => cases hst

/-- The other steps call the payload, or complete a call of it: the rule has a condition for
each. -/
theorem Rule.stands_step (hrule : Rule P handle payload ok report T)
    (hs : Inv P handle payload s) (hstands : Stands handle payload T (report h) s) (hok : ok s a)
    (hst : s.step P a = some t) : Stands handle payload T (report (a :: h)) t := by
  obtain ⟨pt, hat, hT⟩ := hstands
  by_cases ha : Silent a
  · rw [Stands, hrule.silent a h ha]
    exact ⟨pt, hat.silent ha hs hst, hT⟩
  cases hs with
  | unpolled hparent =>
      cases a with
      | poll | dropParent => exact absurd trivial ha
      | _ => cases hst
  | polled hparent hphase hanswer =>
      cases a with
      | beginOp os =>
          cases hat with
          | begins =>
              cases hst
              exact ⟨_, at_beginOp os, hrule.beginOp h _ os hT rfl hok⟩
          | _ => cases hst
      | complete i e b =>
          cases hat with
          | outstanding p args =>
              cases i with
              | zero =>
                  cases hst
                  exact ⟨_, .resumes p args _ e b, hrule.complete h _ p args e b hT rfl hok⟩
              | succ i => cases hst
          | _ => cases hst
      | resumeOp os =>
          cases hat with
          | resumes p args done e b =>
              cases hst
              exact ⟨_, at_resumeOp p args done e b os,
                hrule.resumeOp h _ os p args e b hT rfl List.getLast?_concat hok⟩
          | _ => cases hst
      | _ => exact absurd trivial ha

/-- The rule: the operation stands at a point with the property along every run. -/
theorem Rule.stands_of_run (hrule : Rule P handle payload ok report T)
    (hr : (system P handle payload).Run ok h s) : Stands handle payload T (report h) s := by
  refine hr.induct (P := fun h s => Stands handle payload T (report h) s) ?_ ?_
  · exact ⟨.before, .unpolled, hrule.start⟩
  · intro h s a t hp hstands hok hst
    have hs := inv_of_run (hp.mono hrule.polls)
    exact hrule.stands_step hs hstands hok hst

end Kiruna.Stream.Overlapped
