import Kiruna.Primitive.AtomicWaker
import Kiruna.Transition.Lts

/-!
# The future and its mailbox

The first poll of a `Future` registers its waker and submits the task, together with the sending
half of the mailbox, to the pool. A later poll looks into the mailbox, registers, and looks again.
The worker writes the output, swaps `has_output` and wakes.

Polls are numbered from 1, and the waker of a poll has its number. Both priorities that exist
submit in the same way.
-/

namespace Kiruna.BlockParty

inductive Poll (Output : Type*)
  | pending
  | ready (output : Output)
  deriving DecidableEq

/-- Where `Future::poll` stands: `first` has taken the task, `load again` is about to load
`has_output`, the second time if `again`, and `read` has seen it set. `undefined` is past a read of
the output before it was initialized. -/
inductive PollPc
  | idle
  | first
  | submit
  | submitted
  | load (again : Bool)
  | register
  | read
  | panicked
  | undefined
  deriving DecidableEq

/-- Where the sending half is: with the future, with the worker, in a step of `send_mail`, or
consumed by it. -/
inductive MailPc (Output : Type*)
  | held
  | waiting
  | writing (output : Output)
  | swapping
  | waking
  | finished
  | panicked
  deriving DecidableEq

structure MailboxShared (Output : Type*) where
  hasOutput : Bool
  output : Option Output
  waker : AtomicWaker
  deriving DecidableEq

/-- `task` tells whether the future still has its task; `sent` is the flag of the sending half and
`read` the one of the receiving half. `submissions` lists the polls that submitted, `results` what
the polls returned, and `mail` is the argument of `send_mail`. -/
structure Future (Output : Type*) where
  task : Bool
  read : Bool
  sent : Bool
  shared : MailboxShared Output
  poll : PollPc
  mailer : MailPc Output
  polls : ℕ
  submissions : List ℕ
  results : List (Poll Output)
  mail : Option Output
  deriving DecidableEq

/-- `poll` begins a poll and `next` continues it; `sendMail` begins `send_mail` and `mailNext`
continues it. -/
inductive FutureLabel (Output : Type*)
  | poll
  | next
  | sendMail (output : Output)
  | mailNext
  deriving DecidableEq

def Poll.isPending {Output : Type*} : Poll Output → Bool
  | .pending => true
  | .ready _ => false

namespace Future

variable {Output : Type*}

def new : Future Output where
  task := true
  read := false
  sent := false
  shared := ⟨false, none, .new⟩
  poll := .idle
  mailer := .held
  polls := 0
  submissions := []
  results := []
  mail := none

def ret (s : Future Output) (r : Poll Output) : Future Output :=
  { s with poll := .idle, results := s.results ++ [r] }

def registered (s : Future Output) (pc : PollPc) : Future Output :=
  { s with poll := pc, shared.waker := s.shared.waker.register s.polls }

def pollStep (s : Future Output) : Option (Future Output) :=
  match s.poll with
  | .first => some (s.registered .submit)
  | .submit => some { s with
      poll := .submitted
      mailer := .waiting
      submissions := s.submissions ++ [s.polls] }
  | .submitted => some (s.ret .pending)
  | .load again =>
      if s.shared.hasOutput then some { s with poll := .read }
      else if again then some (s.ret .pending)
      else some { s with poll := .register }
  | .register => some (s.registered (.load true))
  | .read =>
      if s.read then some { s with poll := .panicked }
      else match s.shared.output with
        | some output => some ({ s with read := true }.ret (.ready output))
        | none => some { s with poll := .undefined }
  | .idle | .panicked | .undefined => none

def mailStep (s : Future Output) : Option (Future Output) :=
  match s.mailer with
  | .writing output => some { s with mailer := .swapping, shared.output := some output }
  | .swapping => some { s with
      mailer := if s.shared.hasOutput then .panicked else .waking
      shared.hasOutput := true }
  | .waking => some { s with mailer := .finished, shared.waker := s.shared.waker.wake }
  | .held | .waiting | .finished | .panicked => none

/-- A future is not polled again after it was ready; the worker has the sending half from the
submission on and calls `send_mail` once. -/
def step (s : Future Output) : FutureLabel Output → Option (Future Output)
  | .poll =>
      match s.poll with
      | .idle =>
          if s.results.all Poll.isPending then
            some { s with
              task := false
              polls := s.polls + 1
              poll := if s.task then .first else .load false }
          else none
      | _ => none
  | .next => s.pollStep
  | .sendMail output =>
      match s.mailer with
      | .waiting =>
          if s.sent then some { s with mailer := .panicked }
          else some { s with sent := true, mailer := .writing output, mail := some output }
      | _ => none
  | .mailNext => s.mailStep

def system (Output : Type*) : Lts (Future Output) (FutureLabel Output) where
  init := new
  step := step

variable {s t : Future Output} {a : FutureLabel Output} {h : List (FutureLabel Output)}

/-- The output was passed to `send_mail` and written. -/
def Written (s : Future Output) : Prop := ∃ output, s.mail = some output ∧
  s.shared.output = some output

/-- What is known while the sending half is at `pc`. -/
def MailKnows (s : Future Output) : MailPc Output → Prop
  | .held => s.sent = false ∧ s.shared.hasOutput = false ∧ s.submissions = []
  | .waiting => s.sent = false ∧ s.shared.hasOutput = false ∧ s.submissions = [1]
  | .writing output => s.mail = some output ∧ s.shared.hasOutput = false ∧ s.submissions = [1]
  | .swapping => s.Written ∧ s.shared.hasOutput = false ∧ s.submissions = [1]
  | .waking | .finished => s.Written ∧ s.shared.hasOutput = true ∧ s.submissions = [1]
  | .panicked => False

/-- The task has not been submitted. -/
structure Unasked (s : Future Output) : Prop where
  held : s.mailer = .held
  read : s.read = false
  results : s.results = []

/-- The task has been submitted and the output has not been read. -/
structure Asked (s : Future Output) : Prop where
  task : s.task = false
  given : s.mailer ≠ .held
  read : s.read = false
  pending : s.results.all Poll.isPending = true

/-- The last poll has returned the output. -/
structure Answered (s : Future Output) : Prop where
  given : s.mailer ≠ .held
  hasOutput : s.shared.hasOutput = true
  result : ∃ l output, s.results = l ++ [.ready output] ∧ l.all Poll.isPending = true ∧
    s.mail = some output

/-- The waker of the most recent poll was woken or will be by the wake that is still to come. -/
def Covered (s : Future Output) : Prop :=
  s.shared.waker.Reaches s.polls ∧ (s.mailer = .finished → s.polls ∈ s.shared.waker.woken)

/-- What is known while the poll is at `pc`. -/
def PollKnows (s : Future Output) : PollPc → Prop
  | .idle => (s.Unasked ∧ s.task = true ∧ s.polls = 0) ∨
      (s.Asked ∧ s.results ≠ [] ∧ s.Covered) ∨ s.Answered
  | .first => s.Unasked ∧ s.task = false ∧ s.polls = 1
  | .submit => s.Unasked ∧ s.task = false ∧ s.polls = 1 ∧ s.shared.waker.Reaches 1
  | .submitted => s.Asked ∧ s.Covered
  | .load again => s.Asked ∧ s.results ≠ [] ∧ (again = true → s.shared.waker.Reaches s.polls)
  | .register => s.Asked ∧ s.results ≠ []
  | .read => s.Asked ∧ s.results ≠ [] ∧ s.shared.hasOutput = true
  | .panicked | .undefined => False

structure FutureInv (s : Future Output) : Prop where
  mail : s.MailKnows s.mailer
  poll : s.PollKnows s.poll

theorem futureInv_new : FutureInv (new : Future Output) :=
  ⟨⟨rfl, rfl, rfl⟩, .inl ⟨⟨rfl, rfl, rfl⟩, rfl, rfl⟩⟩

theorem FutureInv.hasOutput (hs : FutureInv s) (ho : s.shared.hasOutput = true) :
    s.Written ∧ s.submissions = [1] := by
  have hm := hs.mail
  unfold MailKnows at hm
  split at hm
  · simp [hm.2.1] at ho
  · simp [hm.2.1] at ho
  · simp [hm.2.1] at ho
  · simp [hm.2.1] at ho
  · exact ⟨hm.1, hm.2.2⟩
  · exact ⟨hm.1, hm.2.2⟩
  · exact hm.elim

theorem FutureInv.submissions (hs : FutureInv s) (hg : s.mailer ≠ .held) :
    s.submissions = [1] := by
  have hm := hs.mail
  unfold MailKnows at hm
  split at hm <;> simp_all

/-- What a step of the sending half leaves to the poll. -/
structure MailFrame (s t : Future Output) : Prop where
  task : t.task = s.task
  read : t.read = s.read
  polls : t.polls = s.polls
  poll : t.poll = s.poll
  results : t.results = s.results
  given : s.mailer ≠ .held ∧ t.mailer ≠ .held
  hasOutput : s.shared.hasOutput = true → t.shared.hasOutput = true ∧ t.mail = s.mail
  reaches : ∀ n, s.shared.waker.Reaches n → t.shared.waker.Reaches n
  finished : t.mailer = .finished → ∀ n, s.shared.waker.Reaches n → n ∈ t.shared.waker.woken

theorem MailFrame.asked (hf : MailFrame s t) (hs : s.Asked) : t.Asked where
  task := hf.task.trans hs.task
  given := hf.given.2
  read := hf.read.trans hs.read
  pending := by rw [hf.results, hs.pending]

theorem MailFrame.covered (hf : MailFrame s t) (hs : s.Covered) : t.Covered := by
  unfold Covered
  rw [hf.polls]
  exact ⟨hf.reaches _ hs.1, fun he => hf.finished he _ hs.1⟩

theorem MailFrame.pollKnows (hf : MailFrame s t) {pc : PollPc} (hs : s.PollKnows pc) :
    t.PollKnows pc := by
  cases pc with
  | idle =>
      rcases hs with ⟨hun, -, -⟩ | ⟨hask, hne, hcov⟩ | hans
      · exact absurd hun.held hf.given.1
      · exact .inr (.inl ⟨hf.asked hask, hf.results ▸ hne, hf.covered hcov⟩)
      · obtain ⟨ho, hmail⟩ := hf.hasOutput hans.hasOutput
        refine .inr (.inr ⟨hf.given.2, ho, ?_⟩)
        rw [hf.results, hmail]
        exact hans.result
  | first => exact absurd hs.1.held hf.given.1
  | submit => exact absurd hs.1.held hf.given.1
  | submitted => exact ⟨hf.asked hs.1, hf.covered hs.2⟩
  | load again =>
      refine ⟨hf.asked hs.1, hf.results ▸ hs.2.1, fun ha => ?_⟩
      rw [hf.polls]
      exact hf.reaches _ (hs.2.2 ha)
  | register => exact ⟨hf.asked hs.1, hf.results ▸ hs.2⟩
  | read => exact ⟨hf.asked hs.1, hf.results ▸ hs.2.1, (hf.hasOutput hs.2.2).1⟩
  | panicked => exact hs
  | undefined => exact hs

theorem sendMail_step (hs : FutureInv s) {output : Output}
    (hst : s.step (.sendMail output) = some t) : FutureInv t := by
  have hm := hs.mail
  simp only [step] at hst
  split at hst
  · rename_i hpc
    rw [hpc] at hm
    obtain ⟨hsent, ho, hsub⟩ := hm
    rw [hsent, if_neg Bool.false_ne_true] at hst
    cases hst
    have hf : MailFrame s { s with sent := true, mailer := .writing output, mail := some output } :=
      ⟨rfl, rfl, rfl, rfl, rfl, by simp [hpc], by simp [ho], fun _ hn => hn, nofun⟩
    exact ⟨⟨rfl, ho, hsub⟩, hf.pollKnows hs.poll⟩
  · cases hst

theorem mailNext_step (hs : FutureInv s) (hst : s.step .mailNext = some t) : FutureInv t := by
  have hm := hs.mail
  simp only [step, mailStep] at hst
  split at hst <;> cases hst
  · rename_i output hpc
    rw [hpc] at hm
    have hf : MailFrame s
        { s with mailer := .swapping, shared := { s.shared with output := some output } } :=
      ⟨rfl, rfl, rfl, rfl, rfl, by simp [hpc], fun ho => ⟨ho, rfl⟩, fun _ hn => hn, nofun⟩
    exact ⟨⟨⟨output, hm.1, rfl⟩, hm.2⟩, hf.pollKnows hs.poll⟩
  · rename_i hpc
    rw [hpc] at hm
    simp only [hm.2.1, Bool.false_eq_true, if_false]
    have hf : MailFrame s
        { s with mailer := .waking, shared := { s.shared with hasOutput := true } } :=
      ⟨rfl, rfl, rfl, rfl, rfl, by simp [hpc], fun _ => ⟨rfl, rfl⟩, fun _ hn => hn, nofun⟩
    exact ⟨⟨hm.1, rfl, hm.2.2⟩, hf.pollKnows hs.poll⟩
  · rename_i hpc
    rw [hpc] at hm
    have hf : MailFrame s
        { s with mailer := .finished, shared := { s.shared with waker := s.shared.waker.wake } } :=
      ⟨rfl, rfl, rfl, rfl, rfl, by simp [hpc], fun ho => ⟨ho, rfl⟩, fun _ hn => .inr hn.wake,
        fun _ _ hn => hn.wake⟩
    exact ⟨⟨hm.1, hm.2⟩, hf.pollKnows hs.poll⟩

theorem poll_step (hs : FutureInv s) (hst : s.step .poll = some t) : FutureInv t := by
  have hp := hs.poll
  simp only [step] at hst
  split at hst
  · rename_i hpc
    rw [hpc] at hp
    by_cases hall : s.results.all Poll.isPending = true
    · rw [if_pos hall] at hst
      cases hst
      refine ⟨hs.mail, ?_⟩
      rcases hp with ⟨hun, htask, hpolls⟩ | ⟨hask, hne, -⟩ | hans
      · simp only [htask, if_true]
        exact ⟨⟨hun.held, hun.read, hun.results⟩, rfl, by simp [hpolls]⟩
      · simp only [hask.task, Bool.false_eq_true, if_false]
        exact ⟨⟨rfl, hask.given, hask.read, hask.pending⟩, hne, by simp⟩
      · obtain ⟨l, output, hl, -, -⟩ := hans.result
        simp [hl, Poll.isPending] at hall
    · rw [if_neg hall] at hst
      cases hst
  · cases hst

theorem Asked.ret_pending (hs : s.Asked) (hc : s.Covered) : (s.ret .pending).PollKnows .idle := by
  refine .inr (.inl ⟨⟨hs.task, hs.given, hs.read, ?_⟩, by simp [ret], hc⟩)
  simpa [ret, Poll.isPending] using hs.pending

theorem FutureInv.not_finished (hs : FutureInv s) (ho : ¬ s.shared.hasOutput = true) :
    s.mailer ≠ .finished := by
  intro he
  have hm := hs.mail
  rw [he] at hm
  exact ho hm.2.1

theorem next_step (hs : FutureInv s) (hst : s.step .next = some t) : FutureInv t := by
  have hp := hs.poll
  have hm := hs.mail
  simp only [step, pollStep] at hst
  split at hst
  · rename_i hpc
    rw [hpc] at hp
    obtain ⟨hun, htask, hpolls⟩ := hp
    cases hst
    exact ⟨hm, ⟨hun.held, hun.read, hun.results⟩, htask, hpolls, .inl (congrArg some hpolls)⟩
  · rename_i hpc
    rw [hpc] at hp
    obtain ⟨hun, htask, hpolls, hreach⟩ := hp
    rw [hun.held] at hm
    cases hst
    refine ⟨⟨hm.1, hm.2.1, ?_⟩, ⟨htask, nofun, hun.read, ?_⟩, ?_, nofun⟩
    · simp [hm.2.2, hpolls]
    · simp [hun.results]
    · simpa only [hpolls] using hreach
  · rename_i hpc
    rw [hpc] at hp
    cases hst
    exact ⟨hm, hp.1.ret_pending hp.2⟩
  · rename_i again hpc
    rw [hpc] at hp
    by_cases ho : s.shared.hasOutput = true
    · rw [if_pos ho] at hst
      cases hst
      exact ⟨hm, ⟨hp.1.task, hp.1.given, hp.1.read, hp.1.pending⟩, hp.2.1, ho⟩
    · rw [if_neg ho] at hst
      by_cases ha : again = true
      · rw [if_pos ha] at hst
        cases hst
        exact ⟨hm, hp.1.ret_pending ⟨hp.2.2 ha, fun he => absurd he (hs.not_finished ho)⟩⟩
      · rw [if_neg ha] at hst
        cases hst
        exact ⟨hm, ⟨hp.1.task, hp.1.given, hp.1.read, hp.1.pending⟩, hp.2.1⟩
  · rename_i hpc
    rw [hpc] at hp
    cases hst
    exact ⟨hm, ⟨hp.1.task, hp.1.given, hp.1.read, hp.1.pending⟩, hp.2, fun _ => .inl rfl⟩
  · rename_i hpc
    rw [hpc] at hp
    obtain ⟨hask, hne, ho⟩ := hp
    obtain ⟨⟨output, hmail, hout⟩, hsub⟩ := hs.hasOutput ho
    rw [hask.read, if_neg Bool.false_ne_true, hout] at hst
    cases hst
    exact ⟨hm, .inr (.inr ⟨hask.given, ho, s.results, output, rfl, hask.pending, hmail⟩)⟩
  · cases hst
  · cases hst
  · cases hst

theorem futureInv_of_run {ok : Future Output → FutureLabel Output → Prop}
    (hr : (system Output).Run ok h s) : FutureInv s := by
  refine hr.invariant (fun t a u ht _ hst => ?_) futureInv_new
  cases a with
  | poll => exact poll_step ht hst
  | next => exact next_step ht hst
  | sendMail output => exact sendMail_step ht hst
  | mailNext => exact mailNext_step ht hst

/-- The protocol of one future and its mailbox. -/
structure Protocol (s : Future Output) : Prop where
  submitted : s.submissions = [] ∨ s.submissions = [1]
  first : s.results ≠ [] → s.submissions = [1]
  once : (s.results.filter fun r => !r.isPending).length ≤ 1
  ready : ∀ output, .ready output ∈ s.results → s.mail = some output ∧
    s.shared.output = some output
  asserted : s.poll ≠ .panicked ∧ s.poll ≠ .undefined ∧ s.mailer ≠ .panicked
  woken : s.poll = .idle → s.results.getLast? = some .pending → s.mailer = .finished →
    s.polls ∈ s.shared.waker.woken

/-- Every result is pending, or the last one is the only output. -/
theorem FutureInv.results (hs : FutureInv s) :
    s.results = [] ∨ (s.mailer ≠ .held ∧ (s.results.all Poll.isPending = true ∨ s.Answered)) := by
  have hp := hs.poll
  unfold PollKnows at hp
  split at hp
  · rcases hp with ⟨hun, -, -⟩ | ⟨hask, -, -⟩ | hans
    · exact .inl hun.results
    · exact .inr ⟨hask.given, .inl hask.pending⟩
    · exact .inr ⟨hans.given, .inr hans⟩
  · exact .inl hp.1.results
  · exact .inl hp.1.results
  · exact .inr ⟨hp.1.given, .inl hp.1.pending⟩
  · exact .inr ⟨hp.1.given, .inl hp.1.pending⟩
  · exact .inr ⟨hp.1.given, .inl hp.1.pending⟩
  · exact .inr ⟨hp.1.given, .inl hp.1.pending⟩
  · exact hp.elim
  · exact hp.elim

theorem filter_of_pending {l : List (Poll Output)} (hl : l.all Poll.isPending = true) :
    (l.filter fun r => !r.isPending) = [] := by
  rw [List.filter_eq_nil_iff]
  intro r hr
  simp [List.all_eq_true.mp hl r hr]

theorem protocol_of_reachable (hr : (system Output).Reachable s) : s.Protocol := by
  obtain ⟨h, hrun⟩ := hr
  have hs := futureInv_of_run hrun
  refine ⟨?_, ?_, ?_, ?_, ?_, ?_⟩
  · by_cases hheld : s.mailer = .held
    · have hm := hs.mail
      rw [hheld] at hm
      exact .inl hm.2.2
    · exact .inr (hs.submissions hheld)
  · intro hne
    rcases hs.results with hnil | ⟨hg, -⟩
    · exact absurd hnil hne
    · exact hs.submissions hg
  · rcases hs.results with hnil | ⟨-, hall | hans⟩
    · simp [hnil]
    · simp [filter_of_pending hall]
    · obtain ⟨l, output, hl, hall, -⟩ := hans.result
      rw [hl, List.filter_append, filter_of_pending hall]
      exact List.length_filter_le _ _
  · intro output hmem
    rcases hs.results with hnil | ⟨-, hall | hans⟩
    · simp [hnil] at hmem
    · simpa [Poll.isPending] using List.all_eq_true.mp hall _ hmem
    · obtain ⟨l, output', hl, hall, hmail⟩ := hans.result
      rw [hl, List.mem_append, List.mem_singleton] at hmem
      rcases hmem with hmem | he
      · simpa [Poll.isPending] using List.all_eq_true.mp hall _ hmem
      · obtain rfl := Poll.ready.inj he
        obtain ⟨⟨output', hmail', hout⟩, -⟩ := hs.hasOutput hans.hasOutput
        obtain rfl := Option.some.inj (hmail.symm.trans hmail')
        exact ⟨hmail, hout⟩
  · have hp := hs.poll
    have hm := hs.mail
    refine ⟨fun he => ?_, fun he => ?_, fun he => ?_⟩
    · rw [he] at hp
      exact hp
    · rw [he] at hp
      exact hp
    · rw [he] at hm
      exact hm
  · intro hidle hlast hfin
    have hp := hs.poll
    rw [hidle] at hp
    rcases hp with ⟨hun, -, -⟩ | ⟨-, -, hcov⟩ | hans
    · simp [hun.results] at hlast
    · exact hcov.2 hfin
    · obtain ⟨l, output, hl, -, -⟩ := hans.result
      simp [hl] at hlast

/-- The mail arrives while the second poll is between its first look and its registration. -/
def mailBetween : List (FutureLabel ℕ) :=
  [.poll, .next, .next, .next, .poll, .next, .sendMail 23, .mailNext, .mailNext, .mailNext, .next,
    .next, .next]

theorem protocol_mailBetween :
    Protocol (⟨false, true, true, ⟨true, some 23, ⟨some 2, [1]⟩⟩, .idle, .finished, 2, [1],
      [.pending, .ready 23], some 23⟩ : Future ℕ) :=
  protocol_of_reachable ⟨mailBetween.reverse, Lts.path_of_exec _ (by decide)⟩

end Future
end Kiruna.BlockParty
