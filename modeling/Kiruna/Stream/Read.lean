import Kiruna.Stream.OverlappedRule

/-!
# Reading a file

`Read::all` is an overlapped operation that goes on until the system reports a failure. It takes
`ERROR_BROKEN_PIPE` for the end of what it reads. A regular file ends with `ERROR_HANDLE_EOF`
instead, at an offset that each round makes from the length of the buffer, cut to 32 bits.
-/

namespace Kiruna.Stream

structure Read where
  fd : Handle
  deriving DecidableEq

namespace Read

open Overlapped

/-- `ERROR_BROKEN_PIPE`. -/
def errorBrokenPipe : OSError := ⟨109⟩

/-- `ERROR_HANDLE_EOF`. -/
def errorHandleEof : OSError := ⟨38⟩

/-- `Read::new`. -/
def new (handle : Handle) : Read := ⟨handle⟩

/-- The operation that `Read::all` awaits. -/
def all (Waker : Type*) (r : Read) :
    Lts (Overlapped Buffer ReadFileEx (Except (OSError × Buffer) Buffer) Waker)
      (OverlappedLabel Waker ReadOs) :=
  system ReadChild.payloadTrait r.fd ⟨[]⟩

/-- What `Read::all` makes of the result of its operation. -/
def outcome {B : Type*} : Except (OSError × B) B → Except OSError B
  | .error (e, newBuffer) => if e = errorBrokenPipe then .ok newBuffer else .error e
  | .ok ok => .ok ok

section RegularFile

variable {Waker : Type*} (content : List UInt8)

/-- A completed read of a file: at least one byte and at most those that were asked for, or the end
of the file. -/
def FileCompletes (args : ReadFileEx) (e b : UInt32) : Prop :=
  if args.offset.toNat < content.length then
    e = 0 ∧ 1 ≤ b.toNat ∧ b ≤ args.numberOfBytesToRead ∧
      args.offset.toNat + b.toNat ≤ content.length
  else e = errorHandleEof.code ∧ b = 0

/-- The calls that the running callback makes, if the system accepts them. -/
def attempted (s : Overlapped Buffer ReadFileEx (Except (OSError × Buffer) Buffer) Waker)
    (os : ReadOs) : List (OsCall ReadFileEx) :=
  let os := { os with lastError := none }
  match s.pool.worker with
  | .beginOp raw => (s.pool.beginOp ReadChild.payloadTrait raw os).calls
  | .resumeOp raw e b => (s.pool.resumeOp ReadChild.payloadTrait raw e b os).calls
  | _ => []

/-- `ReadFileEx` fails at once only at the end of the file. -/
def FileAccepts (s : Overlapped Buffer ReadFileEx (Except (OSError × Buffer) Buffer) Waker)
    (os : ReadOs) : Prop :=
  os.lastError = none ∨ os.lastError = some errorHandleEof.code ∧
    ∀ call ∈ attempted s os, content.length ≤ call.args.offset.toNat

/-- The handle is a regular file with the content. No poll is made after `Ready`. -/
def ReadsFile (s : Overlapped Buffer ReadFileEx (Except (OSError × Buffer) Buffer) Waker) :
    OverlappedLabel Waker ReadOs → Prop
  | .poll _ => s.returned = []
  | .beginOp os => FileAccepts content s os
  | .complete i e b => ∀ call ∈ s.pool.calls[i]?, FileCompletes content call.args e b
  | .resumeOp os => FileAccepts content s os ∧ ∀ done ∈ s.completed.getLast?,
      (List.range done.2.2.toNat).map os.memory =
        (content.drop done.1.offset.toNat).take done.2.2.toNat
  | .dropParent | .runClosure | .ready | .drop => True

/-- As far as offsets of 32 bits reach, the buffer holds the beginning of the file. -/
def Follows (bytes : List UInt8) : Prop :=
  bytes.length < 2 ^ 32 ∨ content.length < 2 ^ 32 → bytes <+: content

/-- The arguments of a read behind the bytes. -/
def argsBehind (r : Read) (bytes : List UInt8) : ReadFileEx :=
  ⟨r.fd, UInt32.ofNat bytes.length, ReadChild.readSize⟩

/-- What is known of the read of a file at a point. -/
def Reading (r : Read) (_ : Unit) :
    Point Buffer ReadFileEx (Except (OSError × Buffer) Buffer) → Prop
  | .before => True
  | .waits p args => args = r.argsBehind p.bytes ∧ Follows content p.bytes
  | .resumes p args e b => args = r.argsBehind p.bytes ∧ Follows content p.bytes ∧
      FileCompletes content args e b
  | .done _ result => content.length < 2 ^ 32 ∧ result = .error (errorHandleEof, ⟨content⟩)

variable {content} {r : Read} {bytes : List UInt8}

/-- At the end of a file the buffer is the whole file. A file of 2^32 bytes has no end. -/
theorem Follows.eof (hf : Follows content bytes)
    (hle : content.length ≤ (UInt32.ofNat bytes.length).toNat) :
    content.length < 2 ^ 32 ∧ bytes = content := by
  rw [UInt32.toNat_ofNat'] at hle
  have hmod : bytes.length % 2 ^ 32 < 2 ^ 32 := Nat.mod_lt _ (Nat.two_pow_pos 32)
  have hlt : content.length < 2 ^ 32 := hle.trans_lt hmod
  have hprefix := hf (.inr hlt)
  have hlength := hprefix.length_le
  rw [Nat.mod_eq_of_lt (hlength.trans_lt hlt)] at hle
  exact ⟨hlt, hprefix.eq_of_length_le hle⟩

/-- The bytes that are read at the offset go on where the buffer ends. -/
theorem Follows.append (hf : Follows content bytes) {n : ℕ}
    (hle : (UInt32.ofNat bytes.length).toNat + n ≤ content.length) :
    Follows content (bytes ++ (content.drop (UInt32.ofNat bytes.length).toNat).take n) := by
  intro hlt
  have hprefix : bytes <+: content := by
    apply hf
    rw [List.length_append] at hlt
    omega
  have hlength := hprefix.length_le
  have hoffset : (UInt32.ofNat bytes.length).toNat = bytes.length := by
    rw [UInt32.toNat_ofNat']
    apply Nat.mod_eq_of_lt
    rw [List.length_append] at hlt
    omega
  obtain ⟨rest, rfl⟩ := hprefix
  rw [hoffset, List.drop_left]
  exact (List.prefix_append_right_inj bytes).mpr (List.take_prefix n rest)

variable {s : Overlapped Buffer ReadFileEx (Except (OSError × Buffer) Buffer) Waker}
  {h : List (OverlappedLabel Waker ReadOs)} {os : ReadOs}

/-- `ReadFileEx` is called behind the buffer. -/
theorem reading_readImpl (hf : Follows content bytes)
    (hos : os.lastError = none ∨ os.lastError = some errorHandleEof.code ∧
      content.length ≤ (UInt32.ofNat bytes.length).toNat) :
    Reading content r () (pointOf (ReadChild.readImpl ⟨bytes⟩ r.fd 0 os)) := by
  rcases hos with hnone | ⟨hsome, hle⟩
  · rw [ReadChild.readImpl, hnone]
    exact ⟨rfl, hf⟩
  · obtain ⟨hlt, rfl⟩ := hf.eof hle
    rw [ReadChild.readImpl, hsome]
    exact ⟨hlt, rfl⟩

theorem FileAccepts.attempt {args : ReadFileEx} (hos : FileAccepts content s os)
    (hcalls : attempted s os = [⟨0, args⟩]) :
    os.lastError = none ∨ os.lastError = some errorHandleEof.code ∧
      content.length ≤ args.offset.toNat := by
  rcases hos with hnone | ⟨hsome, hle⟩
  · exact .inl hnone
  · refine .inr ⟨hsome, ?_⟩
    apply hle ⟨0, args⟩
    rw [hcalls]
    exact List.mem_singleton_self _

theorem rule_reading (content : List UInt8) (r : Read) :
    Rule ReadChild.payloadTrait r.fd ⟨[]⟩ (@ReadsFile Waker content) (fun _ => ())
      (Reading content r) where
  polls s a hok := by
    cases a with
    | poll w => exact hok
    | _ => trivial
  silent _ _ _ := rfl
  start := trivial
  beginOp h s os _ hpool hok := by
    have hcalls : attempted s os = [⟨0, r.argsBehind []⟩] := by
      rw [attempted, hpool]
      rfl
    exact reading_readImpl (fun _ => List.nil_prefix) (hok.attempt hcalls)
  complete h s p args e b hT hpool hok := by
    refine ⟨hT.1, hT.2, hok ⟨0, args⟩ ?_⟩
    rw [hpool]
    rfl
  resumeOp h s os p args e b hT hpool hlast hok := by
    obtain ⟨hargs, hf, hcomplete⟩ := hT
    obtain ⟨haccepts, hmemory⟩ := hok
    have hread := hmemory _ hlast
    subst hargs
    by_cases hlt : (r.argsBehind p.bytes).offset.toNat < content.length
    · rw [FileCompletes, if_pos hlt] at hcomplete
      obtain ⟨rfl, -, -, hle⟩ := hcomplete
      have hcalls : attempted s os = [⟨0, r.argsBehind (p.bytes ++
          (List.range b.toNat).map os.memory)⟩] := by
        rw [attempted, hpool]
        rfl
      refine reading_readImpl ?_ (haccepts.attempt hcalls)
      rw [hread]
      exact hf.append hle
    · rw [FileCompletes, if_neg hlt] at hcomplete
      obtain ⟨rfl, rfl⟩ := hcomplete
      obtain ⟨hlt, hbytes⟩ := hf.eof (Nat.le_of_not_lt hlt)
      refine ⟨hlt, ?_⟩
      rw [← hbytes]

instance (content : List UInt8) (args : ReadFileEx) (e b : UInt32) :
    Decidable (FileCompletes content args e b) :=
  inferInstanceAs (Decidable (ite _ _ _))

instance (content : List UInt8) (os : ReadOs) : Decidable (FileAccepts content s os) :=
  inferInstanceAs (Decidable (_ ∨ _))

instance (content : List UInt8) : ∀ (s : Overlapped Buffer ReadFileEx
    (Except (OSError × Buffer) Buffer) Waker) (a : OverlappedLabel Waker ReadOs),
    Decidable (ReadsFile content s a)
  | s, .poll _ => decidable_of_iff (s.returned.isEmpty = true) List.isEmpty_iff
  | s, .beginOp os => inferInstanceAs (Decidable (FileAccepts content s os))
  | s, .complete i e b =>
      inferInstanceAs (Decidable (∀ call ∈ s.pool.calls[i]?, FileCompletes content call.args e b))
  | s, .resumeOp os => inferInstanceAs (Decidable (FileAccepts content s os ∧
      ∀ done ∈ s.completed.getLast?, (List.range done.2.2.toNat).map os.memory =
        (content.drop done.1.offset.toNat).take done.2.2.toNat))
  | _, .dropParent | _, .runClosure | _, .ready | _, .drop => isTrue trivial

/-- `Read::all` returns the content of the file, after reads that each begin where the buffer
ends. -/
structure ReturnsContent (content : List UInt8)
    (s : Overlapped Buffer ReadFileEx (Except (OSError × Buffer) Buffer) Waker) : Prop where
  offset : ∀ call ∈ s.pool.calls, ∀ c, s.pool.boxes = [.raw c] →
    call.args.offset.toNat = c.payload.bytes.length
  returned : s.returned.map outcome = [.ok ⟨content⟩]

/-- What the reads do instead. -/
structure ReturnsEof (content : List UInt8)
    (s : Overlapped Buffer ReadFileEx (Except (OSError × Buffer) Buffer) Waker) : Prop where
  offset : ∀ call ∈ s.pool.calls, ∀ c, s.pool.boxes = [.raw c] →
    (call.args.offset.toNat = c.payload.bytes.length ↔ c.payload.bytes.length < 2 ^ 32)
  returned : ∀ result ∈ s.returned, content.length < 2 ^ 32 ∧
    outcome result = .error errorHandleEof

theorem offset_argsBehind_iff (r : Read) (bytes : List UInt8) :
    (r.argsBehind bytes).offset.toNat = bytes.length ↔ bytes.length < 2 ^ 32 := by
  rw [argsBehind, UInt32.toNat_ofNat', Nat.mod_eq_iff_lt (Nat.two_pow_pos 32).ne']

theorem returnsEof_of_stands (hs : Inv ReadChild.payloadTrait r.fd ⟨[]⟩ s)
    (hstands : Stands r.fd ⟨[]⟩ (Reading content r) () s) : ReturnsEof content s := by
  obtain ⟨pt, hat, hT⟩ := hstands
  constructor
  · intro call hcall c hbox
    generalize s.pool = pool at hat hcall hbox
    generalize s.completed = completed at hat
    generalize s.readied = readied at hat
    cases hat with
    | outstanding p args =>
        obtain rfl := List.mem_singleton.mp hcall
        obtain rfl : ⟨r.fd, p⟩ = c := by simpa using hbox
        rw [hT.1]
        exact offset_argsBehind_iff r p.bytes
    | _ => cases hcall
  · intro result hresult
    have hreadied : result ∈ s.readied := by
      rcases hs.returned with hnil | heq
      · rw [hnil] at hresult
        cases hresult
      · rwa [← heq]
    generalize s.pool = pool at hat
    generalize s.completed = completed at hat
    generalize s.readied = readied at hat hreadied
    cases hat with
    | dropsEarly p x | drops p x | freed p x =>
        obtain rfl := List.mem_singleton.mp hreadied
        exact ⟨hT.1, by rw [hT.2]; rfl⟩
    | _ => cases hreadied

theorem not_returnsContent_of_run (hr : (r.all Waker).Run (ReadsFile content) h s) :
    ¬ ReturnsContent content s ∧ ReturnsEof content s := by
  have hrule := @rule_reading Waker content r
  have heof := returnsEof_of_stands (inv_of_run (hr.mono hrule.polls)) (hrule.stands_of_run hr)
  refine ⟨fun hreturns => ?_, heof⟩
  obtain ⟨result, hresult, hok⟩ : ∃ result ∈ s.returned, outcome result = .ok ⟨content⟩ := by
    rw [← List.mem_map, hreturns.returned]
    exact List.mem_singleton_self _
  rw [(heof.returned result hresult).2] at hok
  cases hok

/-- A read that waits behind the bytes. -/
def waiting (r : Read) (bytes : List UInt8) (w : Waker)
    (done : List (ReadFileEx × UInt32 × UInt32)) :
    Overlapped Buffer ReadFileEx (Except (OSError × Buffer) Buffer) Waker :=
  ⟨r.fd, .polled, some ⟨w, .poll .pending⟩,
    ⟨[], [.raw ⟨r.fd, ⟨bytes⟩⟩], [⟨0, r.argsBehind bytes⟩], .idle, false⟩, some w, [], [], [], done⟩

/-- The file can be read byte by byte. -/
theorem exists_run_waiting (r : Read) (hlt : content.length < 2 ^ 32) (w : Waker) {k : ℕ}
    (hk : k ≤ content.length) :
    ∃ h done, (r.all Waker).Run (ReadsFile content) h (r.waiting (content.take k) w done) := by
  induction k with
  | zero =>
      exact ⟨_, [], Lts.path_of_exec [.poll w, .runClosure, .beginOp ⟨none, fun _ => 0⟩] rfl⟩
  | succ k ih =>
      obtain ⟨h, done, hp⟩ := ih (Nat.le_of_succ_le hk)
      have hoffset : (r.argsBehind (content.take k)).offset.toNat = k := by
        rw [(offset_argsBehind_iff r _).mpr] <;> rw [List.length_take_of_le] <;> omega
      have hcomplete : ReadsFile content (r.waiting (content.take k) w done) (.complete 0 0 1) := by
        intro call hcall
        cases hcall
        rw [FileCompletes, hoffset, if_pos (Nat.lt_of_succ_le hk)]
        exact ⟨rfl, Nat.le_refl 1, (by decide : (1 : UInt32) ≤ ReadChild.readSize), hk⟩
      have hcompleted := hp.snoc hcomplete rfl
      rw [List.take_succ_eq_append_getElem hk]
      refine ⟨_, done ++ [(r.argsBehind (content.take k), 0, 1)],
        hcompleted.snoc (a := .resumeOp ⟨none, fun _ => content[k]⟩) ?_ rfl⟩
      refine ⟨.inl rfl, fun last hlast => ?_⟩
      rw [List.getLast?_concat] at hlast
      cases hlast
      change [content[k]] = (content.drop (r.argsBehind (content.take k)).offset.toNat).take 1
      rw [hoffset, List.drop_eq_getElem_cons hk, List.take_succ_cons, List.take_zero]

/-- Every file whose offsets fit 32 bits can be read, and the read then returns the error. -/
theorem exists_returned_eof (r : Read) (hlt : content.length < 2 ^ 32) (w : Waker) :
    ∃ h s, (r.all Waker).Run (ReadsFile content) h s ∧
      s.returned = [.error (errorHandleEof, ⟨content⟩)] := by
  obtain ⟨h, done, hp⟩ := exists_run_waiting r hlt w (Nat.le_refl content.length)
  rw [List.take_length] at hp
  have hcomplete : ReadsFile content (r.waiting content w done) (.complete 0 38 0) := by
    intro call hcall
    cases hcall
    rw [FileCompletes, (offset_argsBehind_iff r content).mpr hlt, if_neg (Nat.lt_irrefl _)]
    exact ⟨rfl, rfl⟩
  have hresumed := (hp.snoc hcomplete rfl).snoc
    (a := OverlappedLabel.resumeOp ⟨none, fun _ => 0⟩) (by
      refine ⟨.inl rfl, fun last hlast => ?_⟩
      rw [List.getLast?_concat] at hlast
      cases hlast
      rfl) rfl
  exact ⟨_, _, (hresumed.snoc (a := OverlappedLabel.ready) trivial rfl).snoc
    (a := OverlappedLabel.poll w) rfl rfl, rfl⟩

/-- A file of two bytes, read by two reads. -/
def readTwoByteFile : List (OverlappedLabel ℕ ReadOs) :=
  [.poll 1, .runClosure, .beginOp ⟨none, fun _ => 0⟩, .complete 0 0 2,
    .resumeOp ⟨none, fun i => if i = 0 then 104 else 105⟩, .complete 0 38 0,
    .resumeOp ⟨none, fun _ => 0⟩, .ready, .poll 2]

def afterTwoByteFile : Overlapped Buffer ReadFileEx (Except (OSError × Buffer) Buffer) ℕ :=
  ⟨7, .polled, some ⟨1, .gone⟩, ⟨[], [.owned ⟨7, ⟨[104, 105]⟩⟩], [], .drop .completion 0, false⟩,
    some 2, [1], [.error (⟨38⟩, ⟨[104, 105]⟩)], [.error (⟨38⟩, ⟨[104, 105]⟩)],
    [(⟨7, 0, 255⟩, 0, 2), (⟨7, 2, 255⟩, 38, 0)]⟩

theorem run_twoByteFile : ((new 7).all ℕ).Run (ReadsFile [104, 105]) readTwoByteFile.reverse
    afterTwoByteFile :=
  Lts.path_of_exec readTwoByteFile (by decide)

theorem not_returnsContent_twoByteFile :
    ¬ ReturnsContent [104, 105] afterTwoByteFile ∧ ReturnsEof [104, 105] afterTwoByteFile :=
  not_returnsContent_of_run run_twoByteFile

/-- The error that ends every regular file is returned. -/
theorem exists_read_fails :
    ¬ ∀ h s, ((new 7).all ℕ).Run (ReadsFile [104, 105]) h s → s.returned ≠ [] →
      ReturnsContent [104, 105] s := by
  intro hall
  have hreturned := (hall _ _ run_twoByteFile (by decide)).returned
  revert hreturned
  decide

end RegularFile
end Read
end Kiruna.Stream
