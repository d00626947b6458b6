import Kiruna.BlockParty.Mailbox

/-!
# The end of the outputs

The sending and the receiving half share their mailbox through an `Arc`. The last of them to go
drops the mailbox, and with it a `MaybeUninit`, which drops nothing: no destructor looks at
`has_output` or `read`. An output is therefore consumed only by the poll that reads it. It is lost
if the future goes before.

A future can be dropped between two polls, and it can be polled again after it was ready. The worker
calls `send_mail` once and drops the sending half behind it, or drops it without.
-/

namespace Kiruna.BlockParty

open Lts (Free)

variable {Output : Type*}

/-- The output that the poll returned. -/
def Poll.output? : Poll Output → Option Output
  | .pending => none
  | .ready output => some output

/-- The outputs that the drop of the mailbox destroys. -/
def MailboxShared.drop (_ : MailboxShared Output) : List Output := []

/-- A future with the references to its mailbox. `receiver` tells whether the `Future` is alive, and
`sender` the same of the sending half. -/
structure Mailbox (Output : Type*) where
  future : Future Output
  receiver : Bool
  sender : Bool
  strong : ℕ
  freed : Bool
  destroyed : List Output
  deriving DecidableEq

/-- The steps of the future and its mailbox, and the drops of the two halves. -/
inductive MailboxLabel (Output : Type*)
  | poll
  | next
  | sendMail (output : Output)
  | mailNext
  | dropFuture
  | dropSender
  deriving DecidableEq

namespace Mailbox

def new : Mailbox Output where
  future := .new
  receiver := true
  sender := true
  strong := 2
  freed := false
  destroyed := []

/-- The outputs that the polls returned. -/
def returned (s : Mailbox Output) : List Output := s.future.results.filterMap Poll.output?

/-- The drop of a reference. The last one drops the mailbox and frees it. -/
def release (s : Mailbox Output) : Mailbox Output :=
  if s.strong = 1 then
    { s with
      strong := 0
      freed := true
      destroyed := s.destroyed ++ s.future.shared.drop }
  else { s with strong := s.strong - 1 }

/-- No poll is running. -/
def Rests (s : Mailbox Output) : Prop := s.future.poll = .idle ∨ s.future.poll = .panicked

instance : ∀ s : Mailbox Output, Decidable s.Rests := fun _ => instDecidableOr

/-- A future that still has its task has the sending half in it. -/
def dropFuture (s : Mailbox Output) : Mailbox Output :=
  if s.future.task then { (release (release s)) with receiver := false, sender := false }
  else { (release s) with receiver := false }

def step (s : Mailbox Output) : MailboxLabel Output → Option (Mailbox Output)
  | .poll =>
      if s.receiver ∧ s.Rests then
        some { s with future := { s.future with
          task := false
          polls := s.future.polls + 1
          poll := if s.future.task then .first else .load false } }
      else none
  | .next => s.future.pollStep.map fun f => { s with future := f }
  | .sendMail output =>
      if s.sender then
        (s.future.step (.sendMail output)).map fun f => { s with future := f }
      else none
  | .mailNext => s.future.mailStep.map fun f => { s with future := f }
  | .dropFuture =>
      if s.receiver ∧ s.Rests then some s.dropFuture else none
  | .dropSender =>
      match s.future.mailer with
      | .waiting | .finished | .panicked =>
          if s.sender then some { (release s) with sender := false } else none
      | _ => none

def system (Output : Type*) : Lts (Mailbox Output) (MailboxLabel Output) where
  init := new
  step := step

/-- Each output is consumed at most once, and it has been when the mailbox is gone. -/
structure ConsumesOnce (s : Mailbox Output) : Prop where
  once : (s.returned ++ s.destroyed).Sublist s.future.mail.toList
  consumed : s.freed = true → s.returned ++ s.destroyed = s.future.mail.toList

/-- The future stays until it has read the output. -/
def ReadBeforeDrop (s : Mailbox Output) : MailboxLabel Output → Prop
  | .dropFuture => s.future.mail = none ∨ s.future.read = true
  | .sendMail _ => s.receiver = true
  | _ => True

instance [DecidableEq Output] : ∀ (s : Mailbox Output) (a : MailboxLabel Output),
    Decidable (s.ReadBeforeDrop a)
  | s, .dropFuture => inferInstanceAs (Decidable (s.future.mail = none ∨ s.future.read = true))
  | s, .sendMail _ => inferInstanceAs (Decidable (s.receiver = true))
  | _, .poll | _, .next | _, .mailNext | _, .dropSender => isTrue trivial

variable {s t : Mailbox Output} {a : MailboxLabel Output} {h : List (MailboxLabel Output)}

/-- What is known while the sending half is at `pc`. -/
def Posted (f : Future Output) : MailPc Output → Prop
  | .held | .waiting => f.sent = false ∧ f.mail = none ∧ f.shared.hasOutput = false
  | .writing output => f.mail = some output ∧ f.shared.hasOutput = false
  | .swapping => f.Written ∧ f.shared.hasOutput = false
  | .waking | .finished => f.Written ∧ f.shared.hasOutput = true
  | .panicked => False

/-- What is known of the future, also when it has been dropped. -/
structure Consistent (f : Future Output) : Prop where
  posted : Posted f f.mailer
  held : f.task = true ∨ f.poll = .first ∨ f.poll = .submit → f.mailer = .held
  unasked : f.task = true → f.poll = .idle
  reading : f.poll = .read ∨ f.read = true → f.shared.hasOutput = true
  returned : f.results.filterMap Poll.output? = if f.read then f.mail.toList else []

variable {f g : Future Output}

theorem Consistent.written (hf : Consistent f) (ho : f.shared.hasOutput = true) : f.Written := by
  have hp := hf.posted
  cases hm : f.mailer <;> rw [hm] at hp
  case held | waiting => exact absurd ho (by simp [hp.2.2])
  case writing | swapping => exact absurd ho (by simp [hp.2])
  case waking | finished => exact hp.1
  case panicked => exact hp.elim

/-- The output is written before it is read, so an unsent one has not been read. -/
theorem Consistent.mail_ne_none (hf : Consistent f) (hread : f.read = true) : f.mail ≠ none := by
  obtain ⟨output, hmail, -⟩ := hf.written (hf.reading (.inr hread))
  simp [hmail]

/-- A step of the poll that leaves the sending half, the flags and the results as they are. -/
theorem Consistent.goto (hf : Consistent f) {task : Bool} {pc : PollPc} {n : ℕ} {w : AtomicWaker}
    (htask : task = false) (hheld : pc = .first ∨ pc = .submit → f.mailer = .held)
    (hread : pc = .read → f.shared.hasOutput = true) :
    Consistent { f with task := task, poll := pc, polls := n, shared.waker := w } where
  posted := hf.posted
  held h := hheld (by simpa [htask] using h)
  unasked := by simp [htask]
  reading h := by
    rcases h with h | h
    · exact hread h
    · exact hf.reading (.inr h)
  returned := hf.returned

theorem Consistent.ret_pending (hf : Consistent f) (ht : f.task = false) :
    Consistent (f.ret .pending) where
  posted := hf.posted
  held h := by simp [Future.ret, ht] at h
  unasked h := by simp [Future.ret]
  reading h := hf.reading (.inr (by simpa [Future.ret] using h))
  returned := by
    have hlog : (f.ret .pending).results.filterMap Poll.output? =
        f.results.filterMap Poll.output? := by
      simp [Future.ret, List.filterMap_cons, Poll.output?]
    exact hlog.trans hf.returned

theorem Consistent.ret_ready (hf : Consistent f) (ht : f.task = false) (hread : f.read = false)
    {output : Output} (ho : f.shared.hasOutput = true) (hmail : f.mail = some output) :
    Consistent ({ f with read := true }.ret (.ready output)) where
  posted := hf.posted
  held h := by simp [Future.ret, ht] at h
  unasked h := by simp [Future.ret]
  reading _ := ho
  returned := by
    have hr := hf.returned
    rw [hread, if_neg Bool.false_ne_true] at hr
    simp [Future.ret, Poll.output?, hr, hmail]

/-- A future with its task is not in a poll. -/
theorem Consistent.task_eq_false (hf : Consistent f) (hpoll : f.poll ≠ .idle) :
    f.task = false := by
  cases ht : f.task with
  | false => rfl
  | true => exact absurd (hf.unasked ht) hpoll

theorem Consistent.pollStep (hf : Consistent f) (hst : f.pollStep = some g) :
    Consistent g ∧ g.task = f.task := by
  have htask (h : f.poll ≠ .idle) : f.task = false := hf.task_eq_false h
  cases hpc : f.poll <;> simp only [hpc, ne_eq, reduceCtorEq, not_false_eq_true, forall_const,
    not_true_eq_false, false_implies] at htask <;> simp only [Future.pollStep, hpc] at hst
  case first =>
    cases hst
    exact ⟨hf.goto htask (fun _ => hf.held (.inr (.inl hpc))) (by simp), rfl⟩
  case submit =>
    cases hst
    have hp := hf.posted
    rw [hf.held (.inr (.inr hpc))] at hp
    refine ⟨⟨hp, ?_, ?_, ?_, hf.returned⟩, rfl⟩
    · simp [htask]
    · simp [htask]
    · intro h
      exact hf.reading (.inr (by simpa using h))
  case submitted =>
    cases hst
    exact ⟨hf.ret_pending htask, rfl⟩
  case load again =>
    by_cases ho : f.shared.hasOutput = true
    · rw [if_pos ho] at hst
      cases hst
      exact ⟨hf.goto htask (by simp) (fun _ => ho), rfl⟩
    · rw [if_neg ho] at hst
      by_cases ha : again = true
      · rw [if_pos ha] at hst
        cases hst
        exact ⟨hf.ret_pending htask, rfl⟩
      · rw [if_neg ha] at hst
        cases hst
        exact ⟨hf.goto htask (by simp) (by simp), rfl⟩
  case register =>
    cases hst
    exact ⟨hf.goto htask (by simp) (by simp), rfl⟩
  case read =>
    have ho := hf.reading (.inl hpc)
    obtain ⟨output, hmail, hout⟩ := hf.written ho
    by_cases hread : f.read = true
    · rw [if_pos hread] at hst
      cases hst
      exact ⟨hf.goto htask (by simp) (by simp), rfl⟩
    · rw [if_neg hread, hout] at hst
      cases hst
      exact ⟨hf.ret_ready htask (Bool.eq_false_iff.mpr hread) ho hmail, rfl⟩
  case idle | panicked | undefined => cases hst

/-- The receiving half sees of a step of the other one that `has_output` may be set. -/
theorem Consistent.mailStep (hf : Consistent f) (hst : f.mailStep = some g) :
    Consistent g ∧ g.task = f.task ∧ g.poll = f.poll ∧ g.read = f.read ∧ g.mail = f.mail := by
  have hp := hf.posted
  have hheld (h : f.mailer ≠ .held) : ¬ (f.task = true ∨ f.poll = .first ∨ f.poll = .submit) :=
    fun ht => h (hf.held ht)
  cases hm : f.mailer <;> rw [hm] at hp <;> simp only [Future.mailStep, hm] at hst
  case writing output =>
    cases hst
    exact ⟨⟨⟨⟨output, hp.1, rfl⟩, hp.2⟩, fun h => absurd h (hheld (by simp [hm])), hf.unasked,
      hf.reading, hf.returned⟩, rfl, rfl, rfl, rfl⟩
  case swapping =>
    rw [if_neg (by simp [hp.2])] at hst
    cases hst
    exact ⟨⟨⟨hp.1, rfl⟩, fun h => absurd h (hheld (by simp [hm])), hf.unasked,
      fun _ => rfl, hf.returned⟩, rfl, rfl, rfl, rfl⟩
  case waking =>
    cases hst
    exact ⟨⟨⟨hp.1, hp.2⟩, fun h => absurd h (hheld (by simp [hm])), hf.unasked,
      hf.reading, hf.returned⟩, rfl, rfl, rfl, rfl⟩
  case held | waiting | finished | panicked => cases hst

theorem Consistent.sendMail (hf : Consistent f) {output : Output}
    (hst : f.step (.sendMail output) = some g) :
    Consistent g ∧ g.task = f.task ∧ g.poll = f.poll ∧ g.read = f.read ∧ f.mail = none ∧
      g.mail = some output := by
  have hp := hf.posted
  have hheld (h : f.mailer ≠ .held) : ¬ (f.task = true ∨ f.poll = .first ∨ f.poll = .submit) :=
    fun ht => h (hf.held ht)
  simp only [Future.step] at hst
  split at hst
  · rename_i hm
    rw [hm] at hp
    obtain ⟨hsent, hmail, ho⟩ := hp
    rw [hsent, if_neg Bool.false_ne_true] at hst
    cases hst
    have hread : f.read ≠ true := fun h => hf.mail_ne_none h hmail
    refine ⟨⟨⟨rfl, ho⟩, fun h => absurd h (hheld (by simp [hm])), hf.unasked, hf.reading, ?_⟩,
      rfl, rfl, rfl, hmail, rfl⟩
    have hr := hf.returned
    rw [if_neg hread] at hr ⊢
    exact hr
  · cases hst

section Release

@[simp] theorem release_future (s : Mailbox Output) : s.release.future = s.future := by
  unfold release
  split_ifs <;> rfl

@[simp] theorem release_receiver (s : Mailbox Output) : s.release.receiver = s.receiver := by
  unfold release
  split_ifs <;> rfl

@[simp] theorem release_sender (s : Mailbox Output) : s.release.sender = s.sender := by
  unfold release
  split_ifs <;> rfl

@[simp] theorem release_strong (s : Mailbox Output) : s.release.strong = s.strong - 1 := by
  unfold release
  split_ifs with h
  · simp [h]
  · rfl

/-- The `MaybeUninit` keeps what is in it from being destroyed. -/
@[simp] theorem release_destroyed (s : Mailbox Output) : s.release.destroyed = s.destroyed := by
  unfold release
  split_ifs
  · exact List.append_nil _
  · rfl

theorem freed_of_release (hf : s.freed = true → s.strong = 0) :
    s.release.freed = true → s.release.strong = 0 := by
  unfold release
  split_ifs
  · intro _
    rfl
  · intro h
    simp [hf h]

@[simp] theorem dropFuture_future (s : Mailbox Output) : s.dropFuture.future = s.future := by
  unfold dropFuture
  split_ifs <;> simp

@[simp] theorem dropFuture_receiver (s : Mailbox Output) : s.dropFuture.receiver = false := by
  unfold dropFuture
  split_ifs <;> rfl

end Release

structure Inv (s : Mailbox Output) : Prop where
  future : Consistent s.future
  strong : s.strong = s.receiver.toNat + s.sender.toNat
  freed : s.freed = true → s.strong = 0
  destroyed : s.destroyed = []
  rests : s.receiver = false → s.Rests
  inside : s.future.task = true → s.sender = s.receiver

theorem inv_new : Inv (new : Mailbox Output) where
  future := ⟨⟨rfl, rfl, rfl⟩, fun _ => rfl, fun _ => rfl, by simp [new, Future.new], rfl⟩
  strong := rfl
  freed h := by simp [new] at h
  destroyed := rfl
  rests _ := .inl rfl
  inside _ := rfl

/-- A step of the future alone. -/
theorem Inv.goto (hs : s.Inv) {f : Future Output} (hf : Consistent f)
    (hrests : s.receiver = false → ({ s with future := f } : Mailbox Output).Rests)
    (htask : f.task = true → s.future.task = true) : Inv { s with future := f } where
  future := hf
  strong := hs.strong
  freed := hs.freed
  destroyed := hs.destroyed
  rests := hrests
  inside h := hs.inside (htask h)

/-- What a step does. -/
inductive Effect (s : Mailbox Output) : MailboxLabel Output → Mailbox Output → Prop
  | poll (hr : s.receiver = true) (hrests : s.Rests) : Effect s .poll { s with
      future := { s.future with
        task := false
        polls := s.future.polls + 1
        poll := if s.future.task then .first else .load false } }
  | next {f : Future Output} (hf : s.future.pollStep = some f) :
      Effect s .next { s with future := f }
  | sendMail {output : Output} {f : Future Output} (hs : s.sender = true)
      (hf : s.future.step (.sendMail output) = some f) :
      Effect s (.sendMail output) { s with future := f }
  | mailNext {f : Future Output} (hf : s.future.mailStep = some f) :
      Effect s .mailNext { s with future := f }
  | dropFuture (hr : s.receiver = true) (hrests : s.Rests) : Effect s .dropFuture s.dropFuture
  | dropSender (hm : s.future.mailer ≠ .held) (hs : s.sender = true) :
      Effect s .dropSender { s.release with sender := false }

theorem effect_of_step (hst : s.step a = some t) : Effect s a t := by
  cases a with
  | poll =>
      obtain ⟨⟨hr, hrests⟩, he⟩ := Option.ite_none_right_eq_some.mp hst
      cases he
      exact .poll hr hrests
  | next =>
      obtain ⟨f, hf, rfl⟩ := Option.map_eq_some_iff.mp hst
      exact .next hf
  | sendMail output =>
      obtain ⟨hsender, he⟩ := Option.ite_none_right_eq_some.mp hst
      obtain ⟨f, hf, rfl⟩ := Option.map_eq_some_iff.mp he
      exact .sendMail hsender hf
  | mailNext =>
      obtain ⟨f, hf, rfl⟩ := Option.map_eq_some_iff.mp hst
      exact .mailNext hf
  | dropFuture =>
      obtain ⟨⟨hr, hrests⟩, he⟩ := Option.ite_none_right_eq_some.mp hst
      cases he
      exact .dropFuture hr hrests
  | dropSender =>
      simp only [step] at hst
      split at hst
      case h_4 => cases hst
      all_goals
        rename_i hm
        obtain ⟨hsender, he⟩ := Option.ite_none_right_eq_some.mp hst
        cases he
        exact .dropSender (by simp [hm]) hsender

theorem Inv.dropFuture (hs : s.Inv) (hr : s.receiver = true) (hrests : s.Rests) :
    s.dropFuture.Inv := by
  have hstrong := hs.strong
  rw [hr] at hstrong
  by_cases htask : s.future.task = true
  · have hsender := (hs.inside htask).trans hr
    rw [Mailbox.dropFuture, if_pos htask]
    refine ⟨by simpa using hs.future, ?_, ?_, by simpa using hs.destroyed, fun _ => ?_,
      fun _ => rfl⟩
    · simp [hstrong, hsender]
    · exact freed_of_release (freed_of_release hs.freed)
    · simpa [Rests] using hrests
  · rw [Mailbox.dropFuture, if_neg htask]
    refine ⟨by simpa using hs.future, ?_, ?_, by simpa using hs.destroyed, fun _ => ?_, fun h => ?_⟩
    · simp [hstrong]
    · exact freed_of_release hs.freed
    · simpa [Rests] using hrests
    · exact absurd (by simpa using h) htask

/-- A future that is not polled rests; only a living one is polled. -/
theorem Inv.receiver_of_pollStep (hs : s.Inv) (hf : s.future.pollStep = some f) :
    s.receiver = true := by
  by_contra hr
  rcases hs.rests (Bool.eq_false_iff.mpr hr) with hpc | hpc
  · simp [Future.pollStep, hpc] at hf
  · simp [Future.pollStep, hpc] at hf

theorem Inv.step (hs : s.Inv) (hst : s.step a = some t) : t.Inv := by
  cases effect_of_step hst with
  | poll hr hrests =>
      refine hs.goto (hs.future.goto rfl (fun h => ?_) (fun h => ?_)) (by simp [hr]) (by simp)
      · apply hs.future.held
        by_contra htask
        simp_all
      · split_ifs at h
  | next hf =>
      obtain ⟨hcons, htask⟩ := hs.future.pollStep hf
      have hr := hs.receiver_of_pollStep hf
      exact hs.goto hcons (by simp [hr]) (by simp [htask])
  | sendMail hsender hf =>
      obtain ⟨hcons, htask, hpoll, -⟩ := hs.future.sendMail hf
      refine hs.goto hcons (fun hr => ?_) (by simp [htask])
      simpa [Rests, hpoll] using hs.rests hr
  | mailNext hf =>
      obtain ⟨hcons, htask, hpoll, -⟩ := hs.future.mailStep hf
      refine hs.goto hcons (fun hr => ?_) (by simp [htask])
      simpa [Rests, hpoll] using hs.rests hr
  | dropFuture hr hrests => exact hs.dropFuture hr hrests
  | dropSender hm hsender =>
      have hstrong := hs.strong
      rw [hsender] at hstrong
      refine ⟨by simpa using hs.future, ?_, freed_of_release hs.freed, by simpa using hs.destroyed,
        fun hr => ?_, fun h => ?_⟩
      · simp [hstrong]
      · simpa [Rests] using hs.rests (by simpa using hr)
      · exact absurd (hs.future.held (.inl (by simpa using h))) hm

/-- The future has gone without the output, which is or was on its way. -/
def Lost (s : Mailbox Output) : Prop :=
  s.receiver = false ∧ s.future.read = false ∧ s.future.mail ≠ none

/-- An output is lost by the steps that do not meet the condition, and stays lost. -/
theorem Inv.lost_iff_of_step (hs : s.Inv) (hst : s.step a = some t) :
    t.Lost ↔ s.Lost ∨ ¬ s.ReadBeforeDrop a := by
  cases effect_of_step hst with
  | poll hr hrests => simp [Lost, ReadBeforeDrop]
  | next hf =>
      have hr := hs.receiver_of_pollStep hf
      simp [Lost, ReadBeforeDrop, hr]
  | sendMail hsender hf =>
      obtain ⟨-, -, -, hread, hmail, hmail'⟩ := hs.future.sendMail hf
      have hunread : s.future.read = false := by
        by_contra h
        exact hs.future.mail_ne_none (Bool.not_eq_false _ ▸ h) hmail
      simp [Lost, ReadBeforeDrop, hread, hunread, hmail, hmail']
  | mailNext hf =>
      obtain ⟨-, -, -, hread, hmail⟩ := hs.future.mailStep hf
      simp [Lost, ReadBeforeDrop, hread, hmail]
  | dropFuture hr hrests =>
      simp only [Lost, ReadBeforeDrop, dropFuture_future, dropFuture_receiver, hr,
        Bool.true_eq_false, true_and, false_and, false_or, not_or, Bool.not_eq_true, ne_eq]
      exact and_comm
  | dropSender hm hsender => simp [Lost, ReadBeforeDrop]

theorem inv_of_run {ok : Mailbox Output → MailboxLabel Output → Prop}
    (hr : (system Output).Run ok h s) : s.Inv :=
  hr.invariant (fun _ _ _ ht _ hst => ht.step hst) inv_new

/-- The steps of a run meet the condition as long as no output is lost. -/
theorem run_readBeforeDrop_iff (hr : (system Output).Run Free h s) :
    (system Output).Run ReadBeforeDrop h s ↔ ¬ s.Lost := by
  induction hr with
  | refl =>
      refine iff_of_true .refl ?_
      simp [Lost, system, new]
  | @snoc h t u a hr hok hst ih =>
      rw [(inv_of_run hr).lost_iff_of_step hst, not_or, not_not, ← ih]
      constructor
      · intro hr'
        cases hr' with
        | snoc hr' hok' hst' =>
            obtain rfl := hr'.unique hr
            exact ⟨hr', hok'⟩
      · intro ⟨hr', hok'⟩
        exact hr'.snoc hok' hst

theorem Inv.consumesOnce_iff (hs : s.Inv) : s.ConsumesOnce ↔ ¬ (s.freed = true ∧ s.Lost) := by
  have hreturned : s.returned = if s.future.read then s.future.mail.toList else [] :=
    hs.future.returned
  have hconsumed : s.returned ++ s.destroyed = s.returned := by
    rw [hs.destroyed, List.append_nil]
  have hgone (hf : s.freed = true) : s.receiver = false := by
    have hstrong := hs.strong
    rw [hs.freed hf] at hstrong
    cases hr : s.receiver with
    | false => rfl
    | true =>
        rw [hr, Bool.toNat_true] at hstrong
        omega
  by_cases hread : s.future.read = true
  · rw [if_pos hread] at hreturned
    refine iff_of_true ⟨?_, fun _ => ?_⟩ ?_
    · rw [hconsumed, hreturned]
    · rw [hconsumed, hreturned]
    · simp [Lost, hread]
  · rw [if_neg hread] at hreturned
    constructor
    · intro hc ⟨hf, hlost⟩
      have he := hc.consumed hf
      rw [hconsumed, hreturned] at he
      apply hlost.2.2
      exact Option.toList_eq_nil_iff.mp he.symm
    · intro hlost
      refine ⟨?_, fun hf => ?_⟩
      · rw [hconsumed, hreturned]
        exact List.nil_sublist _
      · have hmail : s.future.mail = none := by
          by_contra hmail
          exact hlost ⟨hf, hgone hf, Bool.eq_false_iff.mpr hread, hmail⟩
        rw [hconsumed, hreturned, hmail]
        rfl

/-- Every output is consumed once if the future stays until it has read its own; otherwise it is
not, from the end of the mailbox on. -/
theorem consumesOnce_of_run (hr : (system Output).Run Free h s) :
    ((system Output).Run ReadBeforeDrop h s → s.ConsumesOnce) ∧
      (s.freed = true → s.ConsumesOnce → (system Output).Run ReadBeforeDrop h s) := by
  rw [run_readBeforeDrop_iff hr, (inv_of_run hr).consumesOnce_iff]
  constructor
  · intro hlost hc
    exact hlost hc.2
  · intro hf hc hlost
    exact hc ⟨hf, hlost⟩

/-- The output arrives before the second poll; the halves go after it. -/
def readThenDrop : List (MailboxLabel ℕ) :=
  [.poll, .next, .next, .next, .sendMail 23, .mailNext, .mailNext, .mailNext, .poll, .next, .next,
    .dropSender, .dropFuture]

theorem consumesOnce_readThenDrop :
    ConsumesOnce (⟨⟨false, true, true, ⟨true, some 23, ⟨none, [1]⟩⟩, .idle, .finished, 2, [1],
      [.pending, .ready 23], some 23⟩, false, false, 0, true, []⟩ : Mailbox ℕ) :=
  have hr : (system ℕ).Run ReadBeforeDrop readThenDrop.reverse _ := Lts.path_of_exec _ (by decide)
  (consumesOnce_of_run (hr.mono fun _ _ _ => trivial)).1 hr

/-- The output arrives, and the future is dropped before it is polled again. -/
def dropUnread : List (MailboxLabel ℕ) :=
  [.poll, .next, .next, .next, .sendMail 23, .mailNext, .mailNext, .mailNext, .dropSender,
    .dropFuture]

theorem exists_leaked_output :
    ¬ ∀ s, (system ℕ).Reachable s → s.ConsumesOnce := by
  intro hall
  have hrun : ((system ℕ).exec Free new dropUnread).map (fun s =>
      (s.freed, s.returned ++ s.destroyed, s.future.mail)) = some (true, [], some 23) := by
    decide
  obtain ⟨s, hs, he⟩ := Option.map_eq_some_iff.mp hrun
  obtain ⟨hfreed, hconsumed, hmail⟩ : s.freed = true ∧ s.returned ++ s.destroyed = [] ∧
      s.future.mail = some 23 := by
    simpa using he
  have hc := (hall s (Lts.path_of_exec _ hs).reachable).consumed hfreed
  rw [hconsumed, hmail] at hc
  cases hc

end Mailbox
end Kiruna.BlockParty
