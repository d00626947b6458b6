import Kiruna.Stream.OverlappedDelivery
import Mathlib.Data.List.Induction

/-!
# Overlapped writes

A `Write` makes one overlapped operation of each buffer. On a file that can seek, a `WriteFileEx`
overwrites the bytes at the offset that its `OVERLAPPED` gives, and every operation gives the
offset 0. A session of writes therefore leaves what was last written over each position, which is
the stream of the buffers only if all of them but one are empty.
-/

namespace Kiruna.Stream

section File

/-- Puts bytes over those at an offset. A gap behind the end is filled with zeros. -/
def overwrite (file : List UInt8) (offset : ℕ) (bytes : List UInt8) : List UInt8 :=
  file.take offset ++ List.replicate (offset - file.length) 0 ++ bytes ++
    file.drop (offset + bytes.length)

variable (file bytes : List UInt8) (bs : List (List UInt8))

theorem overwrite_start : overwrite file 0 bytes = bytes ++ file.drop bytes.length := by
  simp [overwrite]

theorem overwrite_start_nil : overwrite file 0 [] = file := by
  simp [overwrite]

theorem length_overwrite_start :
    (overwrite file 0 bytes).length = max bytes.length file.length := by
  rw [overwrite_start, List.length_append, List.length_drop]
  omega

/-- What a sequence of writes at the start leaves in an empty file. -/
def overwriteAll : List UInt8 := bs.foldl (fun file bytes => overwrite file 0 bytes) []

theorem overwriteAll_concat :
    overwriteAll (bs ++ [bytes]) = overwrite (overwriteAll bs) 0 bytes := by
  rw [overwriteAll, List.foldl_concat, overwriteAll]

theorem length_overwriteAll_le : (overwriteAll bs).length ≤ bs.flatten.length := by
  induction bs using List.reverseRecOn with
  | nil => exact Nat.le_refl 0
  | append_singleton bs bytes ih =>
      rw [overwriteAll_concat, length_overwrite_start, List.flatten_concat, List.length_append]
      omega

/-- Of the buffers that are not empty, each covers the ones before it. -/
theorem overwriteAll_eq_flatten_iff :
    overwriteAll bs = bs.flatten ↔ bs.countP (· ≠ []) ≤ 1 := by
  induction bs using List.reverseRecOn with
  | nil => simp [overwriteAll]
  | append_singleton bs bytes ih =>
      rw [overwriteAll_concat, List.flatten_concat, List.countP_append]
      by_cases hbytes : bytes = []
      · subst hbytes
        simpa [overwrite_start_nil] using ih
      · have hle := length_overwriteAll_le bs
        have hpos : 0 < bytes.length := List.length_pos_iff.mpr hbytes
        have hone : [bytes].countP (· ≠ []) = 1 := by simp [hbytes]
        have hempty : bs.countP (· ≠ []) + 1 ≤ 1 ↔ bs.flatten = [] := by
          simp [List.countP_eq_zero, List.flatten_eq_nil_iff]
        rw [hone, hempty]
        constructor
        · intro h
          have hlength := congrArg List.length h
          rw [length_overwrite_start, List.length_append] at hlength
          apply List.eq_nil_of_length_eq_zero
          omega
        · intro h
          rw [h] at hle ⊢
          have hnil : overwriteAll bs = [] := List.eq_nil_of_length_eq_zero (Nat.le_zero.mp hle)
          rw [hnil, overwrite_start, List.drop_nil, List.append_nil, List.nil_append]

end File

class AsSlice (Slice : Type*) where
  asSlice : Slice → List UInt8

structure StaticSlice where
  bytes : List UInt8
  deriving DecidableEq

structure BoxedSlice where
  bytes : List UInt8
  deriving DecidableEq

instance : AsSlice StaticSlice := ⟨StaticSlice.bytes⟩

instance : AsSlice BoxedSlice := ⟨BoxedSlice.bytes⟩

structure WriteOp (Slice : Type*) where
  buffer : Slice
  deriving DecidableEq

/-- The arguments of `WriteFileEx`, with the offset that its `OVERLAPPED` gives. -/
structure WriteFileEx where
  handle : Handle
  buffer : List UInt8
  numberOfBytesToWrite : UInt32
  offset : UInt32
  offsetHigh : UInt32
  deriving DecidableEq

/-- A completed call, with its error code and the number of bytes that it has transferred. -/
abbrev WriteCompletion := WriteFileEx × UInt32 × UInt32

namespace WriteOp

variable {Slice : Type*} [AsSlice Slice]

/-- `WriteOp::begin_op`. The system answers with the error of `WriteFileEx`, if it fails. The length
is cut to 32 bits. -/
def beginOp (p : WriteOp Slice) (handle hEvent : Handle) :
    Option UInt32 → OpResult (WriteOp Slice) WriteFileEx (Except OSError Unit)
  | none =>
      let slice := AsSlice.asSlice p.buffer
      ⟨p, .pending, [⟨hEvent, handle, slice, UInt32.ofNat slice.length, 0, 0⟩]⟩
  | some e => ⟨p, .ready (.error ⟨e⟩), []⟩

/-- `WriteOp::resume_op`. -/
def resumeOp (p : WriteOp Slice) (errorCode _bytesTransferred : UInt32) :
    OpResult (WriteOp Slice) WriteFileEx (Except OSError Unit) :=
  if errorCode ≠ 0 then ⟨p, .ready (.error ⟨errorCode⟩), []⟩
  else ⟨p, .ready (.ok ()), []⟩

/-- `PayloadTrait for WriteOp`. -/
def payloadTrait : PayloadTrait (WriteOp Slice) WriteFileEx Unit OSError (Option UInt32) where
  beginOp := beginOp
  resumeOp p errorCode bytesTransferred _ _ _ := resumeOp p errorCode bytesTransferred
  beginOp_honours := by
    intro p handle hEvent os
    cases os with
    | none => exact ⟨_, rfl⟩
    | some e => rfl
  resumeOp_honours := by
    intro p errorCode bytesTransferred handle hEvent os
    rw [resumeOp]
    split_ifs <;> rfl

variable {handle hEvent : Handle} {p q : WriteOp Slice} {args : WriteFileEx}
  {done : List WriteCompletion}

/-- A write makes one call. -/
theorem args_of_rounds (hp : Rounds payloadTrait handle hEvent p q args done) :
    args = ⟨handle, AsSlice.asSlice p.buffer,
      UInt32.ofNat (AsSlice.asSlice p.buffer).length, 0, 0⟩ ∧ done = [] := by
  cases hp with
  | @begin os q args h =>
      cases os with
      | none =>
          cases h
          exact ⟨rfl, rfl⟩
      | some e => cases h
  | @resume os q q' args args' done e b hp h =>
      change resumeOp q e b = _ at h
      rw [resumeOp] at h
      split_ifs at h <;> cases h

/-- A write succeeds with its only completion, whatever this says of the bytes. -/
theorem completed_of_resolved (hr : Resolved payloadTrait handle hEvent p (.ok ()) done) :
    ∃ b, done = [(⟨handle, AsSlice.asSlice p.buffer,
      UInt32.ofNat (AsSlice.asSlice p.buffer).length, 0, 0⟩, 0, b)] := by
  cases hr with
  | @begin os q _ h => cases os <;> cases h
  | @resume os q q' args done e b _ hp h =>
      obtain ⟨rfl, rfl⟩ := args_of_rounds hp
      change resumeOp q e b = _ at h
      rw [resumeOp] at h
      by_cases he : e = 0
      · exact ⟨b, by rw [he, List.nil_append]⟩
      · rw [if_pos he] at h
        cases h

end WriteOp

structure Write where
  fd : Handle
  deriving DecidableEq

namespace Write

open Overlapped

variable {Waker : Type*} (w : Write) (buffer : List UInt8)

/-- `Write::new`. -/
def new (handle : Handle) : Write := ⟨handle⟩

/-- `Write::write_static`. -/
def writeStatic : Lts (Overlapped (WriteOp StaticSlice) WriteFileEx (Except OSError Unit) Waker)
    (OverlappedLabel Waker (Option UInt32)) :=
  system WriteOp.payloadTrait w.fd ⟨⟨buffer⟩⟩

/-- `Write::write_boxed`. -/
def writeBoxed : Lts (Overlapped (WriteOp BoxedSlice) WriteFileEx (Except OSError Unit) Waker)
    (OverlappedLabel Waker (Option UInt32)) :=
  system WriteOp.payloadTrait w.fd ⟨⟨buffer⟩⟩

variable (Waker) in
/-- The completions of a write that was polled until it has returned `Ok`. A call transfers no more
bytes than it is asked to. -/
inductive Written : List WriteCompletion → Prop
  | writeStatic {h : List (OverlappedLabel Waker (Option UInt32))}
      {s : Overlapped (WriteOp StaticSlice) WriteFileEx (Except OSError Unit) Waker}
      (hr : (w.writeStatic buffer).Run PollsBeforeReady h s) (hok : s.returned = [.ok ()])
      (hle : ∀ c ∈ s.completed, c.2.2 ≤ c.1.numberOfBytesToWrite) : Written s.completed
  | writeBoxed {h : List (OverlappedLabel Waker (Option UInt32))}
      {s : Overlapped (WriteOp BoxedSlice) WriteFileEx (Except OSError Unit) Waker}
      (hr : (w.writeBoxed buffer).Run PollsBeforeReady h s) (hok : s.returned = [.ok ()])
      (hle : ∀ c ∈ s.completed, c.2.2 ≤ c.1.numberOfBytesToWrite) : Written s.completed

/-- A write that was awaited and has returned `Ok`. -/
structure Awaited (Waker : Type*) (w : Write) where
  buffer : List UInt8
  completed : List WriteCompletion
  written : Written Waker w buffer completed

end Write

namespace WriteFileEx

/-- The offset that the two halves make. -/
def position (args : WriteFileEx) : ℕ := args.offsetHigh.toNat * 2 ^ 32 + args.offset.toNat

/-- The first bytes of what the call was asked to write. -/
def transferred (c : WriteCompletion) : List UInt8 :=
  (c.1.buffer.take c.1.numberOfBytesToWrite.toNat).take c.2.2.toNat

/-- A completed call on a file that can seek. -/
def apply (file : List UInt8) (c : WriteCompletion) : List UInt8 :=
  overwrite file c.1.position (transferred c)

end WriteFileEx

namespace Write

open Overlapped WriteFileEx

variable {Waker : Type*} {w : Write}

namespace Awaited

/-- The bytes that the completions report. -/
def bytesTransferred (a : Awaited Waker w) : ℕ := weight (fun c => c.2.2.toNat) a.completed

/-- The bytes that the completions have taken from the buffer. -/
def handedOver (a : Awaited Waker w) : List UInt8 := a.completed.flatMap transferred

end Awaited

/-- The file that was empty before the writes of a session. -/
def fileAfter (session : List (Awaited Waker w)) : List UInt8 :=
  (session.flatMap Awaited.completed).foldl WriteFileEx.apply []

/-- The stream of the buffers is in the file, and every `Ok` has handed over its buffer. -/
structure PreservesStream (session : List (Awaited Waker w)) : Prop where
  file : fileAfter session = (session.map Awaited.buffer).flatten
  handedOver : ∀ a ∈ session, a.handedOver = a.buffer

theorem resolved_of_returned {Slice : Type*} [AsSlice Slice] {p : WriteOp Slice}
    {h : List (OverlappedLabel Waker (Option UInt32))}
    {s : Overlapped (WriteOp Slice) WriteFileEx (Except OSError Unit) Waker}
    (hr : (system WriteOp.payloadTrait w.fd p).Run PollsBeforeReady h s)
    (hok : s.returned = [.ok ()]) :
    Resolved WriteOp.payloadTrait w.fd 0 p (.ok ()) s.completed := by
  have hs := inv_of_run hr
  rcases hs.returned with hnil | hreadied
  · rw [hnil] at hok
    cases hok
  · apply hs.resolved
    rw [← hreadied, hok]
    exact List.mem_singleton_self _

/-- An awaited write is one completion of a call at the start of the file. -/
theorem Written.completed_eq {buffer : List UInt8} {completed : List WriteCompletion}
    (hw : Written Waker w buffer completed) :
    ∃ b ≤ UInt32.ofNat buffer.length,
      completed = [(⟨w.fd, buffer, UInt32.ofNat buffer.length, 0, 0⟩, 0, b)] := by
  cases hw with
  | writeStatic hr hok hle | writeBoxed hr hok hle =>
      obtain ⟨b, hb⟩ := WriteOp.completed_of_resolved (resolved_of_returned hr hok)
      refine ⟨b, ?_, hb⟩
      rw [hb] at hle
      exact hle _ (List.mem_singleton_self _)

namespace Awaited

theorem apply_completed (a : Awaited Waker w) (file : List UInt8) :
    a.completed.foldl WriteFileEx.apply file = overwrite file 0 a.handedOver := by
  obtain ⟨b, hle, hb⟩ := a.written.completed_eq
  rw [handedOver, hb, List.foldl_cons, List.foldl_nil, List.flatMap_singleton, apply]
  have hposition : position ⟨w.fd, a.buffer, UInt32.ofNat a.buffer.length, 0, 0⟩ = 0 := by
    simp [position]
  rw [hposition]

/-- The bytes that are handed over begin the buffer, and the completion counts them. -/
theorem handedOver_eq_take (a : Awaited Waker w) :
    a.handedOver = a.buffer.take a.bytesTransferred ∧ a.bytesTransferred ≤ a.buffer.length := by
  obtain ⟨b, hle, hb⟩ := a.written.completed_eq
  rw [handedOver, bytesTransferred, hb, List.flatMap_singleton, weight_cons, weight_nil,
    Nat.add_zero, transferred, List.take_take]
  have hb' : b.toNat ≤ (UInt32.ofNat a.buffer.length).toNat := hle
  have hn : (UInt32.ofNat a.buffer.length).toNat ≤ a.buffer.length := by
    rw [UInt32.toNat_ofNat']
    exact Nat.mod_le _ _
  exact ⟨by rw [Nat.min_eq_left hb'], hb'.trans hn⟩

theorem handedOver_eq_buffer_iff (a : Awaited Waker w) :
    a.handedOver = a.buffer ↔ a.bytesTransferred = a.buffer.length := by
  obtain ⟨htake, hle⟩ := a.handedOver_eq_take
  rw [htake]
  constructor
  · intro h
    have hlength := congrArg List.length h
    rwa [List.length_take, Nat.min_eq_left hle] at hlength
  · intro h
    rw [h, List.take_length]

/-- The count that a completion reports is a 32-bit one. -/
theorem bytesTransferred_lt (a : Awaited Waker w) : a.bytesTransferred < 2 ^ 32 := by
  obtain ⟨b, hle, hb⟩ := a.written.completed_eq
  rw [bytesTransferred, hb]
  exact b.toNat_lt

end Awaited

variable (session : List (Awaited Waker w))

theorem fileAfter_eq_overwriteAll :
    fileAfter session = overwriteAll (session.map Awaited.handedOver) := by
  induction session using List.reverseRecOn with
  | nil => rfl
  | append_singleton session a ih =>
      rw [fileAfter] at ih
      rw [fileAfter, List.flatMap_append, List.foldl_append, ih, List.flatMap_singleton,
        a.apply_completed, List.map_append, List.map_singleton, overwriteAll_concat]

/-- A longer buffer is never wholly written. -/
theorem length_lt_of_preservesStream (h : PreservesStream session) :
    ∀ a ∈ session, a.buffer.length < 2 ^ 32 := by
  intro a ha
  rw [← a.handedOver_eq_buffer_iff.mp (h.handedOver a ha)]
  exact a.bytesTransferred_lt

theorem preservesStream_iff :
    PreservesStream session ↔
      (∀ a ∈ session, a.bytesTransferred = a.buffer.length) ∧
        (session.map Awaited.buffer).countP (· ≠ []) ≤ 1 := by
  have hbytes : (∀ a ∈ session, a.handedOver = a.buffer) ↔
      ∀ a ∈ session, a.bytesTransferred = a.buffer.length :=
    forall₂_congr fun a _ => a.handedOver_eq_buffer_iff
  have hfile (h : ∀ a ∈ session, a.handedOver = a.buffer) :
      fileAfter session = overwriteAll (session.map Awaited.buffer) := by
    rw [fileAfter_eq_overwriteAll, List.map_congr_left h]
  constructor
  · intro h
    refine ⟨hbytes.mp h.handedOver, (overwriteAll_eq_flatten_iff _).mp ?_⟩
    rw [← hfile h.handedOver, h.file]
  · intro ⟨hreported, hcount⟩
    have hhanded := hbytes.mpr hreported
    exact ⟨by rw [hfile hhanded, (overwriteAll_eq_flatten_iff _).mpr hcount], hhanded⟩

/-- The write of one byte, after its only completion. -/
def writeByteAfter (byte : UInt8) :
    Overlapped (WriteOp StaticSlice) WriteFileEx (Except OSError Unit) ℕ :=
  ⟨7, .polled, some ⟨0, .gone⟩,
    ⟨[], [.owned ⟨7, ⟨⟨[byte]⟩⟩⟩], [], .drop .completion 0, false⟩, some 1, [0], [.ok ()],
    [.ok ()], [(⟨7, [byte], 1, 0, 0⟩, 0, 1)]⟩

def writeByteRun : List (OverlappedLabel ℕ (Option UInt32)) :=
  [.poll 0, .runClosure, .beginOp none, .complete 0 0 1, .resumeOp none, .ready, .poll 1]

theorem run_writeByte (byte : UInt8) :
    (writeStatic (.new 7) [byte]).Run PollsBeforeReady writeByteRun.reverse (writeByteAfter byte) :=
  Lts.path_of_exec writeByteRun rfl

/-- One byte that the system writes whole. -/
def writeByte (byte : UInt8) : Awaited ℕ (.new 7) where
  buffer := [byte]
  completed := [(⟨7, [byte], 1, 0, 0⟩, 0, 1)]
  written := .writeStatic (run_writeByte byte) rfl (by simp [writeByteAfter])

/-- The second byte is written over the first one. -/
theorem not_preservesStream_writeByte : ¬ PreservesStream [writeByte 97, writeByte 98] := by
  intro h
  have hfile := h.file
  revert hfile
  decide

end Write
end Kiruna.Stream
