import Kiruna.Primitive.Vec
import Kiruna.Stream.OverlappedRefinement
import Kiruna.Stream.Read

/-!
# The buffer of a read

`ReadChild` grows its `Vec`, hands a pointer behind the elements to the system, and takes in what
the system has written there. In between, the system writes through the pointer while the worker
thread does not touch the vector. A write outside of the allocation, or a length beyond the
capacity, is recorded as a fault. An allocation that fails aborts the process.
-/

namespace Kiruna.Stream

open Overlapped

/-- The arguments of `ReadFileEx` with the pointer to the memory. -/
structure RawReadFileEx extends ReadFileEx where
  nextWrite : Pointer
  deriving DecidableEq

/-- `ReadChild`, and the pointer that its outstanding call has. -/
structure RawReadChild where
  buffer : Vec UInt8
  nextWrite : Option Pointer
  fault : Bool
  deriving DecidableEq

namespace RawReadChild

variable (A : Allocator UInt8)

def new : RawReadChild := ⟨.withCapacity A ReadChild.readSize.toNat, none, false⟩

/-- A clone of the elements. -/
def cloned (c : RawReadChild) : Buffer := ⟨c.buffer.toList⟩

/-- `ReadChild::read_impl`. -/
def readImpl (c : RawReadChild) (handle hEvent : Handle) (os : ReadOs) :
    OpResult RawReadChild RawReadFileEx (Except (OSError × Buffer) Buffer) :=
  let c := { c with buffer := c.buffer.reserve A ReadChild.readSize.toNat }
  let nextWrite := c.buffer.asMutPtr.add c.buffer.len
  match os.lastError with
  | none =>
      ⟨{ c with nextWrite := some nextWrite }, .pending,
        [⟨hEvent, ⟨⟨handle, UInt32.ofNat c.buffer.len, ReadChild.readSize⟩, nextWrite⟩⟩]⟩
  | some e => ⟨c, .ready (.error (⟨e⟩, c.cloned)), []⟩

/-- The bytes that the system has written during the call. -/
def written (c : RawReadChild) (bytes : List UInt8) : RawReadChild :=
  match c.nextWrite.bind fun p => c.buffer.write p bytes with
  | some buffer => { c with buffer := buffer, nextWrite := none }
  | none => { c with nextWrite := none, fault := true }

def setLen (c : RawReadChild) (newLen : ℕ) : RawReadChild :=
  match c.buffer.setLen newLen with
  | some buffer => { c with buffer := buffer }
  | none => { c with fault := true }

/-- `ReadChild::resume_op`. -/
def resumeOp (c : RawReadChild) (errorCode bytesTransferred : UInt32) (handle hEvent : Handle)
    (os : ReadOs) : OpResult RawReadChild RawReadFileEx (Except (OSError × Buffer) Buffer) :=
  let c := c.written ((List.range bytesTransferred.toNat).map os.memory)
  if errorCode ≠ 0 then ⟨c, .ready (.error (⟨errorCode⟩, c.cloned)), []⟩
  else (c.setLen (c.buffer.len + bytesTransferred.toNat)).readImpl A handle hEvent os

theorem readImpl_honours (c : RawReadChild) (handle hEvent : Handle) (os : ReadOs) :
    (c.readImpl A handle hEvent os).Honours hEvent := by
  obtain ⟨lastError, memory⟩ := os
  cases lastError with
  | none => exact ⟨_, rfl⟩
  | some e => rfl

/-- `PayloadTrait for ReadChild`. -/
def payloadTrait : PayloadTrait RawReadChild RawReadFileEx Buffer (OSError × Buffer) ReadOs where
  beginOp := readImpl A
  resumeOp := resumeOp A
  beginOp_honours := readImpl_honours A
  resumeOp_honours := by
    intro c errorCode bytesTransferred handle hEvent os
    unfold resumeOp
    split_ifs
    · rfl
    · exact readImpl_honours A _ _ _ _

end RawReadChild

namespace Read

variable {Waker : Type*} (A : Allocator UInt8)

/-- The operation of `Read::all`, with the memory of its buffer. -/
def rawAll (Waker : Type*) (r : Read) :
    Lts (Overlapped RawReadChild RawReadFileEx (Except (OSError × Buffer) Buffer) Waker)
      (OverlappedLabel Waker ReadOs) :=
  system (RawReadChild.payloadTrait A) r.fd (.new A)

/-- What the system has reported to a read: the chunks that it has transferred, the last completion,
and the failure that has ended the read. -/
structure Report where
  chunks : List (List UInt8)
  completion : UInt32 × UInt32
  failure : Option UInt32
  deriving DecidableEq

namespace Report

def new : Report := ⟨[], (0, 0), none⟩

def next (g : Report) : OverlappedLabel Waker ReadOs → Report
  | .beginOp os => { g with failure := os.lastError }
  | .complete _ errorCode bytesTransferred => { g with completion := (errorCode, bytesTransferred) }
  | .resumeOp os =>
      if g.completion.1 ≠ 0 then { g with failure := some g.completion.1 }
      else { g with
        chunks := g.chunks ++ [(List.range g.completion.2.toNat).map os.memory]
        failure := os.lastError }
  | _ => g

end Report

/-- The report of a history. -/
def report (h : List (OverlappedLabel Waker ReadOs)) : Report :=
  h.foldr (fun a g => g.next a) .new

/-- A completion transfers at most `READ_SIZE` bytes. No poll is made after `Ready`. -/
def ReadsPipe (s : Overlapped RawReadChild RawReadFileEx (Except (OSError × Buffer) Buffer) Waker) :
    OverlappedLabel Waker ReadOs → Prop
  | .poll _ => s.returned = []
  | .complete _ _ bytesTransferred => bytesTransferred ≤ ReadChild.readSize
  | _ => True

instance : ∀ (s : Overlapped RawReadChild RawReadFileEx (Except (OSError × Buffer) Buffer) Waker)
    (a : OverlappedLabel Waker ReadOs), Decidable (ReadsPipe s a)
  | s, .poll _ => decidable_of_iff (s.returned.isEmpty = true) List.isEmpty_iff
  | _, .complete _ _ b => inferInstanceAs (Decidable (b ≤ ReadChild.readSize))
  | _, .dropParent | _, .runClosure | _, .beginOp _ | _, .resumeOp _ | _, .ready | _, .drop =>
      isTrue trivial

/-- The outstanding call writes behind the elements, where there is room for it. -/
structure Aimed (c : RawReadChild) (args : RawReadFileEx) : Prop where
  nextWrite : args.nextWrite = c.buffer.asMutPtr.add c.buffer.len
  spare : c.buffer.len + args.numberOfBytesToRead.toNat ≤ c.buffer.capacity
  size : args.numberOfBytesToRead = ReadChild.readSize
  remembered : c.nextWrite = some args.nextWrite
  fault : c.fault = false

/-- The buffer has the chunks that were transferred, and no failure was reported. -/
structure Holds (g : Report) (c : RawReadChild) : Prop where
  chunks : c.buffer.toList = g.chunks.flatten
  failure : g.failure = none

/-- What is known of a read of a pipe at a point. -/
def Accumulating (g : Report) :
    Point RawReadChild RawReadFileEx (Except (OSError × Buffer) Buffer) → Prop
  | .before => g.chunks = [] ∧ g.failure = none
  | .waits c args => Aimed c args ∧ Holds g c
  | .resumes c args e b => Aimed c args ∧ Holds g c ∧ g.completion = (e, b) ∧
      b ≤ ReadChild.readSize
  | .done c r => c.fault = false ∧ ∃ e, g.failure = some e ∧
      r = .error (⟨e⟩, ⟨g.chunks.flatten⟩)

variable {A} {c : RawReadChild} {g : Report} {r : Read} {os : ReadOs}

/-- `read_impl` makes room behind the elements, and keeps these. -/
theorem accumulating_readImpl (hfault : c.fault = false)
    (hchunks : c.buffer.toList = g.chunks.flatten) (hfailure : g.failure = os.lastError) :
    Accumulating g (pointOf (c.readImpl A r.fd 0 os)) := by
  have hroom := c.buffer.le_capacity_reserve A ReadChild.readSize.toNat
  have hlist : (c.buffer.reserve A ReadChild.readSize.toNat).toList = g.chunks.flatten := by
    rw [Vec.reserve_toList, hchunks]
  obtain ⟨lastError, memory⟩ := os
  cases lastError with
  | none =>
      refine ⟨⟨rfl, ?_, rfl, rfl, hfault⟩, hlist, hfailure⟩
      change (c.buffer.reserve A ReadChild.readSize.toNat).len + ReadChild.readSize.toNat ≤ _
      rw [Vec.reserve_len]
      exact hroom
  | some e =>
      refine ⟨hfault, e, hfailure, ?_⟩
      rw [← hlist]
      rfl

/-- The bytes that the system has written are taken in behind the elements. -/
theorem setLen_written {args : RawReadFileEx} (ha : Aimed c args) (bytes : List UInt8)
    (hle : bytes.length ≤ ReadChild.readSize.toNat) :
    (c.written bytes).fault = false ∧ (c.written bytes).buffer.toList = c.buffer.toList ∧
      ((c.written bytes).setLen ((c.written bytes).buffer.len + bytes.length)).fault = false ∧
      ((c.written bytes).setLen
        ((c.written bytes).buffer.len + bytes.length)).buffer.toList =
        c.buffer.toList ++ bytes := by
  have hspare := ha.spare
  rw [ha.size] at hspare
  obtain ⟨u, u', hwrite, -, hlist, hset, hlist'⟩ :=
    Vec.setLen_write (v := c.buffer) bytes (by omega)
  have hwritten : c.written bytes = { c with buffer := u, nextWrite := none } := by
    rw [RawReadChild.written, ha.remembered, ha.nextWrite, Option.bind_some, hwrite]
  have hset' : (c.written bytes).setLen ((c.written bytes).buffer.len + bytes.length) =
      { c with buffer := u', nextWrite := none } := by
    rw [hwritten, RawReadChild.setLen]
    simp only [hset]
  rw [hset', hwritten]
  exact ⟨ha.fault, hlist, ha.fault, hlist'⟩

theorem report_cons (a : OverlappedLabel Waker ReadOs) (h : List (OverlappedLabel Waker ReadOs)) :
    report (a :: h) = (report h).next a := rfl

theorem rule_accumulating (A : Allocator UInt8) (r : Read) :
    Rule (RawReadChild.payloadTrait A) r.fd (.new A) (@ReadsPipe Waker) report
      Accumulating where
  polls s a hok := by
    cases a with
    | poll w => exact hok
    | _ => trivial
  silent a h ha := by
    cases a with
    | beginOp | complete | resumeOp => exact ha.elim
    | _ => rfl
  start := ⟨rfl, rfl⟩
  beginOp h s os hT hpool hok := by
    have hchunks : (RawReadChild.new A).buffer.toList =
        (report (.beginOp os :: h)).chunks.flatten := by
      rw [report_cons, Report.next, hT.1]
      rfl
    exact accumulating_readImpl rfl hchunks rfl
  complete h s c args e b hT hpool hok := by
    obtain ⟨ha, hg⟩ := hT
    exact ⟨ha, ⟨hg.chunks, hg.failure⟩, rfl, hok⟩
  resumeOp h s os c args e b hT hpool hlast hok := by
    obtain ⟨ha, hg, hcompletion, hle⟩ := hT
    have hlength : ((List.range b.toNat).map os.memory).length = b.toNat := by simp
    obtain ⟨hfault, hlist, hfault', hlist'⟩ := setLen_written ha
      ((List.range b.toNat).map os.memory) (by rw [hlength]; exact hle)
    rw [hlength] at hfault' hlist'
    change Accumulating _ (pointOf (c.resumeOp A e b r.fd 0 os))
    rw [RawReadChild.resumeOp, report_cons, Report.next, hcompletion]
    by_cases he : e ≠ 0
    · rw [if_pos he, if_pos he]
      refine ⟨hfault, e, rfl, ?_⟩
      rw [RawReadChild.cloned, hlist, hg.chunks]
    · rw [if_neg he, if_neg he]
      refine accumulating_readImpl hfault' ?_ rfl
      rw [hlist', hg.chunks, List.flatten_append, List.flatten_singleton]

/-- What `Read::all` returns when the failure has ended the read. -/
def Report.outcome (g : Report) (e : UInt32) : Except OSError Buffer :=
  if (⟨e⟩ : OSError) = errorBrokenPipe then .ok ⟨g.chunks.flatten⟩ else .error ⟨e⟩

/-- A read of a pipe accumulates safely, and returns what has been transferred. -/
structure Accumulates (r : Read) (g : Report)
    (s : Overlapped RawReadChild RawReadFileEx (Except (OSError × Buffer) Buffer) Waker) :
    Prop where
  aimed : ∀ call ∈ s.pool.calls, ∃ c, s.pool.boxes = [.raw ⟨r.fd, c⟩] ∧ Aimed c call.args
  alone : s.pool.worker ≠ .idle → s.pool.calls = []
  fault : ∀ c, .raw c ∈ s.pool.boxes ∨ .owned c ∈ s.pool.boxes → c.payload.fault = false
  ended : ∀ e, g.failure = some e → ∃ x, Read.outcome x = g.outcome e ∧
    (s.readied = [x] ∨ s.readied = [] ∧ ∃ caller, s.pool.worker = .ready caller 0 x)
  readied : ∀ x ∈ s.readied, ∃ e, g.failure = some e ∧ Read.outcome x = g.outcome e
  returned : s.returned = [] ∨ s.returned = s.readied

theorem outcome_error (e : UInt32) :
    Read.outcome (.error (⟨e⟩, (⟨g.chunks.flatten⟩ : Buffer))) = g.outcome e := rfl

section At

variable {pool : Pool RawReadChild RawReadFileEx (Except (OSError × Buffer) Buffer)}
  {completed : List (RawReadFileEx × UInt32 × UInt32)}
  {readied : List (Except (OSError × Buffer) Buffer)}
  {pt : Point RawReadChild RawReadFileEx (Except (OSError × Buffer) Buffer)}

theorem aimed_of_at (hat : At r.fd (.new A) pool completed readied pt) (hT : Accumulating g pt) :
    ∀ call ∈ pool.calls, ∃ c, pool.boxes = [.raw ⟨r.fd, c⟩] ∧ Aimed c call.args := by
  intro call hcall
  cases hat with
  | outstanding c args =>
      obtain rfl := List.mem_singleton.mp hcall
      exact ⟨c, rfl, hT.1⟩
  | _ => cases hcall

theorem alone_of_at (hat : At r.fd (.new A) pool completed readied pt) (hw : pool.worker ≠ .idle) :
    pool.calls = [] := by
  cases hat with
  | outstanding => exact absurd rfl hw
  | _ => rfl

theorem fault_of_at (hat : At r.fd (.new A) pool completed readied pt) (hT : Accumulating g pt) :
    ∀ c, .raw c ∈ pool.boxes ∨ .owned c ∈ pool.boxes → c.payload.fault = false := by
  intro c hc
  cases hat with
  | unpolled | queued | freed => simp [Pool.new] at hc
  | begins =>
      obtain rfl : c = ⟨r.fd, .new A⟩ := by simpa using hc
      rfl
  | outstanding c' | resumes c' =>
      obtain rfl : c = ⟨r.fd, c'⟩ := by simpa using hc
      exact hT.1.fault
  | readiesEarly c' | readies c' | dropsEarly c' | drops c' =>
      obtain rfl : c = ⟨r.fd, c'⟩ := by simpa using hc
      exact hT.1

/-- A failure that was reported is on its way to the parent. -/
theorem ended_of_at (hat : At r.fd (.new A) pool completed readied pt) (hT : Accumulating g pt)
    {e : UInt32} (he : g.failure = some e) : ∃ x, Read.outcome x = g.outcome e ∧
      (readied = [x] ∨ readied = [] ∧ ∃ caller, pool.worker = .ready caller 0 x) := by
  have hrunning (hnone : g.failure = none) : False := by
    rw [hnone] at he
    cases he
  cases hat with
  | unpolled | queued | begins => exact (hrunning hT.2).elim
  | outstanding => exact (hrunning hT.2.failure).elim
  | resumes => exact (hrunning hT.2.1.failure).elim
  | readiesEarly c x | readies c x =>
      obtain ⟨-, e', he', rfl⟩ := hT
      obtain rfl := Option.some.inj (he'.symm.trans he)
      exact ⟨_, outcome_error e', .inr ⟨rfl, _, rfl⟩⟩
  | dropsEarly c x | drops c x | freed c x =>
      obtain ⟨-, e', he', rfl⟩ := hT
      obtain rfl := Option.some.inj (he'.symm.trans he)
      exact ⟨_, outcome_error e', .inl rfl⟩

theorem readied_of_at (hat : At r.fd (.new A) pool completed readied pt) (hT : Accumulating g pt) :
    ∀ x ∈ readied, ∃ e, g.failure = some e ∧ Read.outcome x = g.outcome e := by
  intro x hx
  cases hat with
  | dropsEarly c x' | drops c x' | freed c x' =>
      obtain rfl := List.mem_singleton.mp hx
      obtain ⟨-, e, he, rfl⟩ := hT
      exact ⟨e, he, outcome_error e⟩
  | _ => cases hx

end At

theorem accumulates_of_run {h : List (OverlappedLabel Waker ReadOs)}
    {s : Overlapped RawReadChild RawReadFileEx (Except (OSError × Buffer) Buffer) Waker}
    (hr : (r.rawAll A Waker).Run ReadsPipe h s) : Accumulates r (report h) s := by
  have hrule := @rule_accumulating Waker A r
  obtain ⟨pt, hat, hT⟩ := hrule.stands_of_run hr
  exact ⟨aimed_of_at hat hT, alone_of_at hat, fault_of_at hat hT, fun _ => ended_of_at hat hT,
    readied_of_at hat hT, (inv_of_run (hr.mono hrule.polls)).returned⟩

section Refinement

theorem readImpl_refines (A : Allocator UInt8) (c : RawReadChild) (handle hEvent : Handle)
    (os : ReadOs) :
    ReadChild.readImpl c.cloned handle hEvent os =
      (c.readImpl A handle hEvent os).map RawReadChild.cloned RawReadFileEx.toReadFileEx := by
  have hlist : (c.buffer.reserve A ReadChild.readSize.toNat).toList = c.buffer.toList :=
    c.buffer.reserve_toList A _
  obtain ⟨lastError, memory⟩ := os
  cases lastError with
  | none =>
      simp [ReadChild.readImpl, RawReadChild.readImpl, OpResult.map, RawReadChild.cloned, hlist,
        OsCall.map, Vec.length_toList]
  | some e =>
      simp [ReadChild.readImpl, RawReadChild.readImpl, OpResult.map, RawReadChild.cloned, hlist]

theorem resumeOp_refines (A : Allocator UInt8) {args : RawReadFileEx} (ha : Aimed c args)
    {e b : UInt32} (hle : b ≤ ReadChild.readSize) (handle hEvent : Handle) (os : ReadOs) :
    ReadChild.payloadTrait.resumeOp c.cloned e b handle hEvent os =
      (c.resumeOp A e b handle hEvent os).map RawReadChild.cloned RawReadFileEx.toReadFileEx := by
  have hlength : ((List.range b.toNat).map os.memory).length = b.toNat := by simp
  obtain ⟨-, hlist, -, hlist'⟩ := setLen_written ha
    ((List.range b.toNat).map os.memory) (by rw [hlength]; exact hle)
  rw [hlength] at hlist'
  simp only [ReadChild.payloadTrait, RawReadChild.resumeOp]
  by_cases he : e ≠ 0
  · rw [if_pos he, if_pos he]
    simp [OpResult.map, RawReadChild.cloned, hlist]
  · rw [if_neg he, if_neg he, ← readImpl_refines]
    simp [RawReadChild.cloned, hlist']

/-- The vector is a representation of the list of its elements. -/
theorem run_refines {h : List (OverlappedLabel Waker ReadOs)}
    {s : Overlapped RawReadChild RawReadFileEx (Except (OSError × Buffer) Buffer) Waker}
    (hr : (r.rawAll A Waker).Run ReadsPipe h s) :
    (r.all Waker).Run PollsBeforeReady h
      (s.map RawReadChild.cloned RawReadFileEx.toReadFileEx) := by
  have hrule := @rule_accumulating Waker A r
  change (system ReadChild.payloadTrait r.fd (RawReadChild.new A).cloned).Run _ h _
  refine run_map (fun t a hok => ?_) (fun h t a ht _ => ?_) hr
  · cases a with
    | poll w => exact hok
    | _ => trivial
  cases a with
  | beginOp os => exact fun raw c _ _ => readImpl_refines A c.payload c.handle raw os
  | resumeOp os =>
      intro raw e b c hw hc
      obtain ⟨pt, hat, hT⟩ := hrule.stands_of_run ht
      obtain ⟨handle, parent, shared, pool, lastWaker, woken, readied, returned, completed⟩ := t
      dsimp only at hat hw hc
      cases hat with
      | resumes c' args done e' b' =>
          cases hw
          cases hc
          exact resumeOp_refines A hT.1 hT.2.2.2 _ _ os
      | _ => cases hw
  | _ => trivial

end Refinement

/-- An allocator of zeroed memory that grows by no more than it has to. -/
def zeroed : Allocator UInt8 := ⟨fun _ additional => List.replicate additional 0, by simp⟩

set_option maxRecDepth 4000 in
/-- The buffer has moved for the second read. -/
theorem accumulates_readTwoBytes :
    Accumulates (new 7) ⟨[[104, 105]], (109, 0), some 109⟩ (⟨7, .polled, some ⟨2, .gone⟩,
      ⟨[], [.freed], [], .idle, false⟩, some 3, [2], [.error (⟨109⟩, ⟨[104, 105]⟩)],
      [.error (⟨109⟩, ⟨[104, 105]⟩)],
      [(⟨⟨7, 0, 255⟩, ⟨0, 0⟩⟩, 0, 2), (⟨⟨7, 2, 255⟩, ⟨1, 2⟩⟩, 109, 0)]⟩ :
      Overlapped RawReadChild RawReadFileEx (Except (OSError × Buffer) Buffer) ℕ) :=
  have hr : ((new 7).rawAll zeroed ℕ).Run ReadsPipe readTwoBytes.reverse _ :=
    Lts.path_of_exec readTwoBytes rfl
  accumulates_of_run hr

end Read
end Kiruna.Stream
