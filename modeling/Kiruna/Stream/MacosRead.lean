import Kiruna.Primitive.Continuation
import Kiruna.Transition.Population

/-!
# Reading a stream on macOS

`Read::all` calls `once` until a read gives no bytes, and joins what the reads gave. `once` makes
one read of the system, whose handler sends the data or the error to a continuation, and the future
of the continuation is what `all` awaits. The system completes a read on a thread of its own, so it
may do so at any time, between the call of `once` and the first poll of its future too, and `all`
may be polled while the handler is still inside `send`.

The stream is a pipe. A writer adds bytes to it at any time, until it closes its end.
-/

namespace Kiruna.Stream.Macos

/-- `OSError(i32)`. -/
structure OSError where
  code : Int32
  deriving DecidableEq

/-- What a handler sends. -/
abbrev Answer := Except OSError (List UInt8)

/-- The end of the pipe that is read, with a record of what was written to the other. -/
structure Pipe where
  written : List UInt8
  unread : List UInt8
  closed : Bool
  deriving DecidableEq

/-- Where `Read::all` stands: before its first poll, in a poll with some waker, between polls, or
returned. -/
inductive AllPc
  | created
  | once (w : ℕ)
  | receive (w : ℕ)
  | suspended (w : ℕ)
  | returned (r : Answer)
  deriving DecidableEq

/-- `onces` are the continuations of the calls of `once`, the latest one last. A read of the system
is outstanding as long as its handler has not been called. -/
structure ReadAll (σ τ : Type*) where
  pc : AllPc
  buffer : List UInt8
  onces : List (Continuation.Pair Answer σ τ)
  pipe : Pipe
  deriving DecidableEq

/-- A step of `all`, of the system, of a handler or of the writer. `complete` and `fail` say which
read ends, and how many bytes it takes from the pipe; `sendStep` says which handler goes on. -/
inductive ReadAllLabel
  | poll (w : ℕ)
  | once
  | receive
  | complete (i n : ℕ)
  | fail (i n : ℕ) (err : Int32)
  | sendStep (i : ℕ)
  | write (bytes : List UInt8)
  | close
  deriving DecidableEq

namespace ReadAll

open Continuation (Pair Receiver)

variable {σ τ : Type*} (C : Continuation Answer σ τ)

def new : ReadAll σ τ := ⟨.created, [], [], ⟨[], [], false⟩⟩

/-- The body of the loop behind the await. -/
def received (s : ReadAll σ τ) (w : ℕ) : Answer → ReadAll σ τ
  | .ok newData =>
      if newData.length = 0 then { s with pc := .returned (.ok s.buffer) }
      else { s with pc := .once w, buffer := s.buffer ++ newData }
  | .error e => { s with pc := .returned (.error e) }

/-- What the handler of `once` sends when it is called with `data` and `err`. -/
def handler (data : List UInt8) (err : Int32) : Answer :=
  if err = 0 then .ok data else .error ⟨err⟩

/-- The system ends the read number `i`, which takes `n` bytes, and calls its handler. -/
def endRead (s : ReadAll σ τ) (i n : ℕ) (err : Int32) : Option (ReadAll σ τ) :=
  match s.onces[i]? with
  | some c =>
      if n ≤ s.pipe.unread.length then
        (C.call c (handler (s.pipe.unread.take n) err)).map fun c => { s with
          onces := s.onces.set i c
          pipe := { s.pipe with unread := s.pipe.unread.drop n } }
      else none
  | none => none

def step (s : ReadAll σ τ) : ReadAllLabel → Option (ReadAll σ τ)
  | .poll w =>
      match s.pc with
      | .created => some { s with pc := .once w }
      | .suspended _ => some { s with pc := .receive w }
      | _ => none
  | .once =>
      match s.pc with
      | .once w => some { s with pc := .receive w, onces := s.onces ++ [C.pair] }
      | _ => none
  | .receive =>
      match s.pc, s.onces.getLast? with
      | .receive w, some c =>
          match C.await c w with
          | some (c, some answer) =>
              some ({ s with onces := s.onces.dropLast ++ [c] }.received w answer)
          | some (c, none) => some { s with
              pc := .suspended w, onces := s.onces.dropLast ++ [c] }
          | none => none
      | _, _ => none
  | .complete i n =>
      -- a read gives no bytes only at the end of the stream
      if n = 0 → s.pipe.unread = [] ∧ s.pipe.closed then s.endRead C i n 0 else none
  | .fail i n err => if err ≠ 0 then s.endRead C i n err else none
  | .sendStep i =>
      match s.onces[i]? with
      | some c => (C.sendStep c).map fun c => { s with onces := s.onces.set i c }
      | none => none
  | .write bytes =>
      if s.pipe.closed then none
      else some { s with pipe := { s.pipe with
        written := s.pipe.written ++ bytes, unread := s.pipe.unread ++ bytes } }
  | .close => some { s with pipe := { s.pipe with closed := true } }

def system : Lts (ReadAll σ τ) ReadAllLabel where
  init := new
  step := step C

/-- The branches of a step that succeeds. -/
inductive Steps (s : ReadAll σ τ) : ReadAllLabel → ReadAll σ τ → Prop
  | poll {w : ℕ} (hpc : s.pc = .created) : Steps s (.poll w) { s with pc := .once w }
  | repoll {v w : ℕ} (hpc : s.pc = .suspended v) : Steps s (.poll w) { s with pc := .receive w }
  | once {w : ℕ} (hpc : s.pc = .once w) :
      Steps s .once { s with pc := .receive w, onces := s.onces ++ [C.pair] }
  | received {w : ℕ} {cs : List (Pair Answer σ τ)} {c c' : Pair Answer σ τ} {answer : Answer}
      (hpc : s.pc = .receive w) (honces : s.onces = cs ++ [c])
      (hawait : C.await c w = some (c', some answer)) :
      Steps s .receive ({ s with onces := cs ++ [c'] }.received w answer)
  | pending {w : ℕ} {cs : List (Pair Answer σ τ)} {c c' : Pair Answer σ τ}
      (hpc : s.pc = .receive w) (honces : s.onces = cs ++ [c])
      (hawait : C.await c w = some (c', none)) :
      Steps s .receive { s with pc := .suspended w, onces := cs ++ [c'] }
  | endRead {a : ReadAllLabel} {i n : ℕ} {err : Int32} {c c' : Pair Answer σ τ}
      (hc : s.onces[i]? = some c) (hcall : C.call c (handler (s.pipe.unread.take n) err) = some c')
      (hle : n ≤ s.pipe.unread.length)
      (hlabel : err = 0 ∧ (n = 0 → s.pipe.unread = [] ∧ s.pipe.closed = true) ∨
        err ≠ 0 ∧ a = .fail i n err) :
      Steps s a { s with
        onces := s.onces.set i c'
        pipe := { s.pipe with unread := s.pipe.unread.drop n } }
  | sendStep {i : ℕ} {c c' : Pair Answer σ τ} (hc : s.onces[i]? = some c)
      (hstep : C.sendStep c = some c') :
      Steps s (.sendStep i) { s with onces := s.onces.set i c' }
  | write {bytes : List UInt8} (hopen : s.pipe.closed = false) :
      Steps s (.write bytes) { s with pipe := { s.pipe with
        written := s.pipe.written ++ bytes, unread := s.pipe.unread ++ bytes } }
  | close : Steps s .close { s with pipe := { s.pipe with closed := true } }

variable {C} {s t : ReadAll σ τ} {a : ReadAllLabel} {h : List ReadAllLabel}

theorem endRead_eq_some {i n : ℕ} {err : Int32} (h : s.endRead C i n err = some t) :
    ∃ c c', s.onces[i]? = some c ∧ C.call c (handler (s.pipe.unread.take n) err) = some c' ∧
      n ≤ s.pipe.unread.length ∧ t = { s with
        onces := s.onces.set i c'
        pipe := { s.pipe with unread := s.pipe.unread.drop n } } := by
  unfold endRead at h
  split at h
  · rename_i c hc
    split_ifs at h with hle
    obtain ⟨c', hcall, rfl⟩ := Option.map_eq_some_iff.mp h
    exact ⟨c, c', hc, hcall, hle, rfl⟩
  · cases h

theorem steps_of_step (h : (system C).step s a = some t) : Steps C s a t := by
  change s.step C a = some t at h
  cases a with
  | poll w =>
      simp only [step] at h
      split at h
      · rename_i hpc
        cases h
        exact .poll hpc
      · rename_i v hpc
        cases h
        exact .repoll hpc
      · cases h
  | once =>
      simp only [step] at h
      split at h
      · rename_i w hpc
        cases h
        exact .once hpc
      · cases h
  | receive =>
      simp only [step] at h
      split at h
      · rename_i w c hpc hlast
        have honces := List.dropLast_append_getLast? c hlast
        split at h
        · rename_i c' answer hawait
          cases h
          exact .received hpc honces.symm hawait
        · rename_i c' hawait
          cases h
          exact .pending hpc honces.symm hawait
        · cases h
      · cases h
  | complete i n =>
      simp only [step] at h
      split_ifs at h with heof
      obtain ⟨c, c', hc, hcall, hle, rfl⟩ := endRead_eq_some h
      exact .endRead hc hcall hle (.inl ⟨rfl, heof⟩)
  | fail i n err =>
      simp only [step] at h
      split_ifs at h with herr
      obtain ⟨c, c', hc, hcall, hle, rfl⟩ := endRead_eq_some h
      exact .endRead hc hcall hle (.inr ⟨herr, rfl⟩)
  | sendStep i =>
      simp only [step] at h
      split at h
      · rename_i c hc
        obtain ⟨c', hstep, rfl⟩ := Option.map_eq_some_iff.mp h
        exact .sendStep hc hstep
      · cases h
  | write bytes =>
      simp only [step] at h
      split_ifs at h with hclosed
      cases h
      exact .write (eq_false_of_ne_true hclosed)
  | close =>
      cases h
      exact .close

section Values

/-- The reads that are over and gave data, and what they gave. -/
def Joined (vs : List (Option Answer)) (bytes : List UInt8) : Prop :=
  ∃ parts : List (List UInt8), vs = parts.map (fun data => some (.ok data)) ∧ bytes = parts.flatten

/-- Where `all` stands: it has the data of all reads but the last, for which it waits or which has
ended it. A read is listed with what its handler was called with. -/
inductive Stands : AllPc → List UInt8 → List (Option Answer) → Prop
  | created : Stands .created [] []
  | once {w : ℕ} {buffer : List UInt8} {vs : List (Option Answer)} (h : Joined vs buffer) :
      Stands (.once w) buffer vs
  | receive {w : ℕ} {buffer : List UInt8} {vs : List (Option Answer)} (h : Joined vs buffer)
      (v : Option Answer) : Stands (.receive w) buffer (vs ++ [v])
  | suspended {w : ℕ} {buffer : List UInt8} {vs : List (Option Answer)} (h : Joined vs buffer)
      (v : Option Answer) : Stands (.suspended w) buffer (vs ++ [v])
  | ended {buffer : List UInt8} {vs : List (Option Answer)} (h : Joined vs buffer) :
      Stands (.returned (.ok buffer)) buffer (vs ++ [some (.ok [])])
  | failed {buffer : List UInt8} {vs : List (Option Answer)} (h : Joined vs buffer) (e : OSError) :
      Stands (.returned (.error e)) buffer (vs ++ [some (.error e)])

/-- What a read gave. -/
def data : Option Answer → List UInt8
  | some (.ok bytes) => bytes
  | _ => []

/-- What the reads gave, in their order. -/
def given (vs : List (Option Answer)) : List UInt8 := (vs.map data).flatten

/-- A read has failed. -/
def Failed (vs : List (Option Answer)) : Prop := ∃ e, some (.error e) ∈ vs

/-- What the last read gave and `all` has not taken. -/
def arrived (pc : AllPc) (vs : List (Option Answer)) : List UInt8 :=
  match pc with
  | .receive _ | .suspended _ => (vs.getLast?.map data).getD []
  | _ => []

variable {pc : AllPc} {buffer : List UInt8} {vs : List (Option Answer)} {v : Option Answer}
  {i w : ℕ}

theorem data_none : data none = [] := rfl

theorem given_append (vs : List (Option Answer)) (v : Option Answer) :
    given (vs ++ [v]) = given vs ++ data v := by
  simp [given]

theorem Joined.snoc (hj : Joined vs buffer) (bytes : List UInt8) :
    Joined (vs ++ [some (.ok bytes)]) (buffer ++ bytes) := by
  obtain ⟨parts, rfl, rfl⟩ := hj
  exact ⟨parts ++ [bytes], by simp, by simp⟩

theorem Joined.given_eq (hj : Joined vs buffer) : given vs = buffer := by
  obtain ⟨parts, rfl, rfl⟩ := hj
  rw [given, List.map_map]
  exact congrArg List.flatten (List.map_id parts)

/-- The reads gave data: none is outstanding and none has failed. -/
theorem Joined.eq_ok_of_mem (hj : Joined vs buffer) (hv : v ∈ vs) :
    ∃ bytes, v = some (.ok bytes) := by
  obtain ⟨parts, rfl, -⟩ := hj
  obtain ⟨bytes, -, heq⟩ := List.mem_map.mp hv
  exact ⟨bytes, heq.symm⟩

theorem Joined.not_failed (hj : Joined vs buffer) (hv : ∀ e, v ≠ some (.error e)) :
    ¬ Failed (vs ++ [v]) := by
  rintro ⟨e, he⟩
  rcases List.mem_append.mp he with he | he
  · obtain ⟨bytes, hok⟩ := hj.eq_ok_of_mem he
    cases hok
  · exact hv e (List.mem_singleton.mp he).symm

/-- Only the last read can be outstanding, while `all` waits for it. -/
theorem Stands.outstanding (hs : Stands pc buffer vs) (hv : vs[i]? = some none) :
    ∃ olds, vs = olds ++ [none] ∧ i = olds.length ∧ Joined olds buffer ∧
      (∃ w, pc = .receive w ∨ pc = .suspended w) ∧ ∀ v, Stands pc buffer (olds ++ [v]) := by
  have hlast {olds : List (Option Answer)} {v : Option Answer} (hj : Joined olds buffer)
      (hget : (olds ++ [v])[i]? = some none) : i = olds.length ∧ v = none := by
    by_cases hlt : i < olds.length
    · rw [List.getElem?_append_left hlt] at hget
      obtain ⟨bytes, hok⟩ := hj.eq_ok_of_mem (List.mem_of_getElem? hget)
      cases hok
    · rw [List.getElem?_append_right (Nat.le_of_not_lt hlt)] at hget
      obtain ⟨hi, heq⟩ := List.getElem?_eq_some_iff.mp hget
      simp only [List.length_singleton] at hi
      exact ⟨by omega, by simpa using heq⟩
  cases hs with
  | created => cases hv
  | once hj =>
      obtain ⟨bytes, hok⟩ := hj.eq_ok_of_mem (List.mem_of_getElem? hv)
      cases hok
  | receive hj v =>
      obtain ⟨hi, rfl⟩ := hlast hj hv
      exact ⟨_, rfl, hi, hj, ⟨_, .inl rfl⟩, fun v' => .receive hj v'⟩
  | suspended hj v =>
      obtain ⟨hi, rfl⟩ := hlast hj hv
      exact ⟨_, rfl, hi, hj, ⟨_, .inr rfl⟩, fun v' => .suspended hj v'⟩
  | ended hj =>
      obtain ⟨-, hnone⟩ := hlast hj hv
      cases hnone
  | failed hj =>
      obtain ⟨-, hnone⟩ := hlast hj hv
      cases hnone

theorem Stands.start (hs : Stands .created buffer vs) : Joined vs buffer := by
  cases hs
  exact ⟨[], rfl, rfl⟩

theorem Stands.looped (hs : Stands (.once w) buffer vs) : Joined vs buffer := by
  cases hs with
  | once hj => exact hj

theorem Stands.waits (hs : Stands (.receive w) buffer vs) :
    ∃ olds v, vs = olds ++ [v] ∧ Joined olds buffer := by
  cases hs with
  | receive hj v => exact ⟨_, v, rfl, hj⟩

theorem Stands.resume {v : ℕ} (hs : Stands (.suspended v) buffer vs) (w : ℕ) :
    Stands (.receive w) buffer vs := by
  cases hs with
  | suspended hj v => exact .receive hj v

theorem Stands.returned {bytes : List UInt8} (hs : Stands (.returned (.ok bytes)) buffer vs) :
    some (.ok []) ∈ vs ∧ ¬ Failed vs ∧ given vs = bytes := by
  cases hs with
  | ended hj =>
      refine ⟨by simp, hj.not_failed (by simp), ?_⟩
      rw [given_append, hj.given_eq, data, List.append_nil]

theorem Stands.error {e : OSError} (hs : Stands (.returned (.error e)) buffer vs) :
    some (.error e) ∈ vs := by
  cases hs with
  | failed => exact List.mem_append_right _ List.mem_cons_self

theorem Stands.given_eq (hs : Stands pc buffer vs) (hfailed : ¬ Failed vs) :
    given vs = buffer ++ arrived pc vs := by
  cases hs with
  | created => rfl
  | once hj => simp [hj.given_eq, arrived]
  | receive hj v => simp [given_append, hj.given_eq, arrived]
  | suspended hj v => simp [given_append, hj.given_eq, arrived]
  | ended hj => simp [given_append, hj.given_eq, arrived, data]
  | failed hj e => exact absurd ⟨e, List.mem_append_right _ List.mem_cons_self⟩ hfailed

/-- The body of the loop takes what the last read gave. -/
theorem stands_received {s : ReadAll σ τ} {answer : Answer} (hj : Joined vs s.buffer) :
    Stands (s.received w answer).pc (s.received w answer).buffer (vs ++ [some answer]) := by
  cases answer with
  | error e => exact .failed hj e
  | ok newData =>
      simp only [received]
      split_ifs with hempty
      · obtain rfl := List.length_eq_zero_iff.mp hempty
        exact .ended hj
      · exact .once (hj.snoc newData)

end Values

theorem received_frame (s : ReadAll σ τ) (w : ℕ) (answer : Answer) :
    (s.received w answer).onces = s.onces ∧ (s.received w answer).pipe = s.pipe := by
  cases answer with
  | error e => exact ⟨rfl, rfl⟩
  | ok newData =>
      simp only [received]
      split_ifs <;> exact ⟨rfl, rfl⟩

/-- What the handlers were called with. -/
abbrev values (s : ReadAll σ τ) : List (Option Answer) := s.onces.map Pair.value

theorem values_set {olds : List (Option Answer)} {v : Option Answer}
    (holds : s.values = olds ++ [v]) (c : Pair Answer σ τ) :
    (s.onces.set olds.length c).map Pair.value = olds ++ [c.value] := by
  rw [List.map_set]
  change s.values.set olds.length _ = _
  rw [holds, List.set_append_right _ _ (Nat.le_refl _), Nat.sub_self, List.set_cons_zero]

/-- How the last polls of the futures ended. -/
abbrev receivers (s : ReadAll σ τ) : List Receiver := s.onces.map Pair.receiver

/-- The last poll of the last future, as far as `all` knows. -/
def Polls : AllPc → Receiver → Prop
  | .receive _, r => r ≠ .ready
  | .suspended w, r => r = .pending w
  | _, _ => True

structure Inv (C : Continuation Answer σ τ) (h : List ReadAllLabel) (s : ReadAll σ τ) : Prop where
  stands : Stands s.pc s.buffer s.values
  polls : ∀ r ∈ s.receivers.getLast?, Polls s.pc r
  reachable : ∀ c ∈ s.onces, C.system.Reachable c
  written : ¬ Failed s.values → s.pipe.written = given s.values ++ s.pipe.unread
  eof : some (.ok []) ∈ s.values → s.pipe.closed = true ∧ s.pipe.unread = []
  reported : ∀ e, some (.error e) ∈ s.values → ∃ i n, .fail i n e.code ∈ h

theorem inv_new : Inv C [] new where
  stands := .created
  polls := by simp [new]
  reachable := by simp [new]
  written _ := rfl
  eof := by simp [new]
  reported := by simp [new]

theorem Inv.reported_cons (hi : Inv C h s) (a : ReadAllLabel) (e : OSError)
    (he : some (.error e) ∈ s.values) : ∃ i n, .fail i n e.code ∈ a :: h := by
  obtain ⟨i, n, hmem⟩ := hi.reported e he
  exact ⟨i, n, List.mem_cons_of_mem a hmem⟩

/-- A step after which the handlers were called with the same, and the pipe is the same. -/
theorem Inv.keep (hi : Inv C h s) (hvalues : t.values = s.values) (hpipe : t.pipe = s.pipe)
    (hstands : Stands t.pc t.buffer s.values) (hpolls : ∀ r ∈ t.receivers.getLast?, Polls t.pc r)
    (hreachable : ∀ c ∈ t.onces, C.system.Reachable c) : Inv C (a :: h) t where
  stands := by
    rw [hvalues]
    exact hstands
  polls := hpolls
  reachable := hreachable
  written := by
    rw [hvalues, hpipe]
    exact hi.written
  eof := by
    rw [hvalues, hpipe]
    exact hi.eof
  reported := by
    rw [hvalues]
    exact hi.reported_cons a

/-- A new call of `once`. -/
theorem Inv.once {w : ℕ} (hi : Inv C h s) (hpc : s.pc = .once w) :
    Inv C (.once :: h) { s with pc := .receive w, onces := s.onces ++ [C.pair] } := by
  have hstands := hi.stands
  rw [hpc] at hstands
  have hvalues : ({ s with pc := .receive w, onces := s.onces ++ [C.pair] } :
      ReadAll σ τ).values = s.values ++ [none] := List.map_append
  have hmem : ∀ v, some v ∈ s.values ++ [none] → some v ∈ s.values := by simp
  constructor
  case stands =>
    rw [hvalues]
    exact .receive hstands.looped none
  case polls => simp [receivers, Polls, Continuation.pair]
  case reachable =>
    intro c hc
    rcases List.mem_append.mp hc with hc | hc
    · exact hi.reachable c hc
    · rw [List.mem_singleton.mp hc]
      exact Continuation.reachable_pair
  case written =>
    rw [hvalues]
    intro hfailed
    rw [given_append, data_none, List.append_nil]
    apply hi.written
    rintro ⟨e, he⟩
    exact hfailed ⟨e, List.mem_append_left _ he⟩
  case eof =>
    rw [hvalues]
    exact fun hok => hi.eof (hmem _ hok)
  case reported =>
    rw [hvalues]
    exact fun e he => hi.reported_cons _ e (hmem _ he)

theorem Inv.reachable_last {cs : List (Pair Answer σ τ)} {c : Pair Answer σ τ} (hi : Inv C h s)
    (honces : s.onces = cs ++ [c]) : C.system.Reachable c := by
  apply hi.reachable
  rw [honces]
  exact List.mem_append_right _ List.mem_cons_self

/-- A poll of the last future leaves what its handler was called with. -/
theorem Inv.await {w : ℕ} {cs : List (Pair Answer σ τ)} {c c' : Pair Answer σ τ}
    {r : Option Answer} (hi : Inv C h s) (honces : s.onces = cs ++ [c])
    (hawait : C.await c w = some (c', r)) :
    (cs ++ [c']).map Pair.value = s.values ∧ ∀ d ∈ cs ++ [c'], C.system.Reachable d := by
  obtain ⟨-, hsender, -, -⟩ := Continuation.await_eq_some hawait
  have hvalue : c'.value = c.value := by simp only [Pair.value, hsender]
  constructor
  · rw [values, honces, List.map_append, List.map_append, List.map_singleton, List.map_singleton,
      hvalue]
  · intro d hd
    rcases List.mem_append.mp hd with hd | hd
    · apply hi.reachable
      rw [honces]
      exact List.mem_append_left _ hd
    · rw [List.mem_singleton.mp hd]
      exact Continuation.reachable_step (hi.reachable_last honces) (a := .poll w)
        (by simp [Continuation.step, hawait])

theorem Inv.received {w : ℕ} {cs : List (Pair Answer σ τ)} {c c' : Pair Answer σ τ}
    {answer : Answer} (hC : C.Documented) (hi : Inv C h s) (hpc : s.pc = .receive w)
    (honces : s.onces = cs ++ [c]) (hawait : C.await c w = some (c', some answer)) :
    Inv C (.receive :: h) ({ s with onces := cs ++ [c'] }.received w answer) := by
  obtain ⟨hvalues, hreachable⟩ := hi.await honces hawait
  have hvalue := hC.value c (hi.reachable_last honces) w c' answer hawait
  have hlast : s.values = cs.map Pair.value ++ [some answer] := by
    rw [values, honces, List.map_append, List.map_singleton, hvalue]
  have hstands := hi.stands
  rw [hpc] at hstands
  obtain ⟨olds, v, heq, hj⟩ := hstands.waits
  rw [hlast] at heq
  obtain ⟨rfl, -⟩ := List.append_inj' heq rfl
  obtain ⟨hsame, hpipe⟩ := received_frame { s with onces := cs ++ [c'] } w answer
  refine hi.keep (by rw [values, hsame]; exact hvalues) hpipe ?_ ?_ (by rwa [hsame])
  · rw [hlast]
    exact stands_received hj
  · intro r _
    cases answer with
    | error e => trivial
    | ok newData =>
        simp only [ReadAll.received]
        split_ifs <;> trivial

theorem Inv.endRead {i n : ℕ} {err : Int32} {c c' : Pair Answer σ τ} (hi : Inv C h s)
    (hc : s.onces[i]? = some c) (hcall : C.call c (handler (s.pipe.unread.take n) err) = some c')
    (hle : n ≤ s.pipe.unread.length)
    (hlabel : err = 0 ∧ (n = 0 → s.pipe.unread = [] ∧ s.pipe.closed = true) ∨
      err ≠ 0 ∧ a = .fail i n err) :
    Inv C (a :: h) { s with
      onces := s.onces.set i c'
      pipe := { s.pipe with unread := s.pipe.unread.drop n } } := by
  obtain ⟨hunsent, rfl⟩ := Continuation.call_eq_some hcall
  have hnone : s.values[i]? = some none := by
    rw [values, List.getElem?_map, hc, Option.map_some, Continuation.value_eq_none.mpr hunsent]
  obtain ⟨olds, holds, rfl, hj, -, hstands⟩ := hi.stands.outstanding hnone
  have hvalues := values_set holds { c with
    sender := .sending (handler (s.pipe.unread.take n) err)
      (C.start (handler (s.pipe.unread.take n) err)) }
  have hreceivers : (s.onces.set olds.length { c with
      sender := .sending (handler (s.pipe.unread.take n) err)
        (C.start (handler (s.pipe.unread.take n) err)) }).map Pair.receiver = s.receivers :=
    map_set_of_eq hc rfl
  have hfailed : ¬ Failed s.values := by
    rw [holds]
    exact hj.not_failed nofun
  have hgiven : given s.values = given olds := by
    rw [holds, given_append, data_none, List.append_nil]
  have hsub : ∀ v ∈ olds, v ∈ s.values := fun v hv => by
    rw [holds]
    exact List.mem_append_left _ hv
  constructor
  case stands =>
    rw [values, hvalues]
    exact hstands _
  case polls =>
    rw [receivers, hreceivers]
    exact hi.polls
  case reachable =>
    apply forall_mem_set hi.reachable
    exact Continuation.reachable_step (hi.reachable c (List.mem_of_getElem? hc)) (a := .send _)
      hcall
  case written =>
    rw [values, hvalues]
    intro hno
    rcases hlabel with ⟨rfl, -⟩ | ⟨herr, -⟩
    · rw [hi.written hfailed, hgiven, given_append, List.append_assoc]
      exact congrArg _ (List.take_append_drop n _).symm
    · refine absurd ⟨⟨err⟩, List.mem_append_right _ ?_⟩ hno
      rw [handler, if_neg herr]
      exact List.mem_cons_self
  case eof =>
    rw [values, hvalues]
    intro hok
    rcases List.mem_append.mp hok with hok | hok
    · obtain ⟨hclosed, hunread⟩ := hi.eof (hsub _ hok)
      exact ⟨hclosed, by rw [hunread, List.drop_nil]⟩
    · have hanswer := Option.some.inj (List.mem_singleton.mp hok)
      rcases hlabel with ⟨rfl, heof⟩ | ⟨herr, -⟩
      · have htake : s.pipe.unread.take n = [] := (Except.ok.inj hanswer).symm
        obtain rfl : n = 0 := by
          have hlength := congrArg List.length htake
          rw [List.length_take_of_le hle] at hlength
          exact hlength
        exact ⟨(heof rfl).2, (heof rfl).1⟩
      · rw [handler, if_neg herr] at hanswer
        cases hanswer
  case reported =>
    rw [values, hvalues]
    intro e he
    rcases List.mem_append.mp he with he | he
    · exact hi.reported_cons a e (hsub _ he)
    · have hanswer := Option.some.inj (List.mem_singleton.mp he)
      rcases hlabel with ⟨rfl, -⟩ | ⟨herr, rfl⟩
      · cases hanswer
      · rw [handler, if_neg herr] at hanswer
        cases hanswer
        exact ⟨_, n, List.mem_cons_self⟩

theorem Inv.steps (hC : C.Documented) (hi : Inv C h s) (hst : Steps C s a t) :
    Inv C (a :: h) t := by
  have hstands := hi.stands
  have hpolls := hi.polls
  cases hst with
  | poll hpc =>
      rw [hpc] at hstands
      exact hi.keep rfl rfl (.once hstands.start) (fun _ _ => trivial) hi.reachable
  | @repoll v w hpc =>
      rw [hpc] at hstands hpolls
      refine hi.keep rfl rfl (hstands.resume w) (fun r hr => ?_) hi.reachable
      rw [show r = .pending v from hpolls r hr]
      exact nofun
  | once hpc => exact hi.once hpc
  | received hpc honces hawait => exact hi.received hC hpc honces hawait
  | @pending w cs c c' hpc honces hawait =>
      obtain ⟨hvalues, hreachable⟩ := hi.await honces hawait
      obtain ⟨-, -, -, hreceiver⟩ := Continuation.await_eq_some hawait
      rw [hpc] at hstands
      obtain ⟨olds, v, heq, hj⟩ := hstands.waits
      refine hi.keep hvalues rfl ?_ ?_ hreachable
      · rw [heq]
        exact .suspended hj v
      · simpa [receivers, Polls] using hreceiver
  | endRead hc hcall hle hlabel => exact hi.endRead hc hcall hle hlabel
  | @sendStep i c c' hc hstep =>
      obtain ⟨hreceiver, hvalue, -⟩ := Continuation.sendStep_eq_some hstep
      refine hi.keep (map_set_of_eq hc hvalue) rfl hstands ?_ (forall_mem_set hi.reachable ?_)
      · rw [receivers, map_set_of_eq hc hreceiver]
        exact hpolls
      · exact Continuation.reachable_step (hi.reachable c (List.mem_of_getElem? hc))
          (a := .sendStep) hstep
  | @write bytes hopen => exact {
      stands := hstands
      polls := hpolls
      reachable := hi.reachable
      written := by
        intro hfailed
        change s.pipe.written ++ bytes = _ ++ (s.pipe.unread ++ bytes)
        rw [hi.written hfailed, List.append_assoc]
      eof := by
        intro hok
        have hclosed := (hi.eof hok).1
        rw [hopen] at hclosed
        cases hclosed
      reported := hi.reported_cons _ }
  | close => exact {
      stands := hstands
      polls := hpolls
      reachable := hi.reachable
      written := hi.written
      eof := fun hok => ⟨rfl, (hi.eof hok).2⟩
      reported := hi.reported_cons _ }

theorem inv_of_run (hC : C.Documented) (hr : (system C).Run Lts.Free h s) : Inv C h s :=
  hr.induct inv_new fun _ _ _ _ _ hi _ hst => hi.steps hC (steps_of_step hst)

/-- `Read::all` reads the pipe to its end. -/
structure ReadsAll (h : List ReadAllLabel) (s : ReadAll σ τ) : Prop where
  oneRead : ∀ i j : ℕ, s.values[i]? = some none → s.values[j]? = some none → i = j
  kept : ¬ Failed s.values → s.pipe.written = s.buffer ++ arrived s.pc s.values ++ s.pipe.unread
  returned : ∀ bytes, s.pc = .returned (.ok bytes) →
    s.pipe.closed = true ∧ s.pipe.unread = [] ∧ bytes = s.pipe.written
  failed : ∀ e, s.pc = .returned (.error e) → ∃ i n, .fail i n e.code ∈ h
  awaits : ∀ w, s.pc = .suspended w → ∃ c, s.onces.getLast? = some c ∧ c.receiver = .pending w ∧
    ∀ v, c.sender = .sent v → w ∈ c.woken

theorem Inv.last (hi : Inv C h s) (hne : s.values ≠ []) :
    ∃ cs c, s.onces = cs ++ [c] ∧ Polls s.pc c.receiver ∧ C.system.Reachable c := by
  have hne' : s.onces ≠ [] := by
    intro hnil
    exact hne (by rw [values, hnil, List.map_nil])
  have honces := List.dropLast_append_getLast hne'
  refine ⟨_, _, honces.symm, hi.polls _ ?_, hi.reachable _ (List.getLast_mem hne')⟩
  rw [receivers, List.getLast?_map, List.getLast?_eq_some_getLast hne', Option.map_some]
  rfl

/-- While `all` waits, it has polled its last future. -/
theorem Inv.suspended {w : ℕ} (hi : Inv C h s) (hpc : s.pc = .suspended w) :
    ∃ cs c, s.onces = cs ++ [c] ∧ c.receiver = .pending w ∧ C.system.Reachable c := by
  have hstands := hi.stands
  rw [hpc] at hstands
  obtain ⟨olds, v, heq, -⟩ := (hstands.resume w).waits
  obtain ⟨cs, c, honces, hpolls, hreachable⟩ := hi.last (by simp [heq])
  rw [hpc] at hpolls
  exact ⟨cs, c, honces, hpolls, hreachable⟩

theorem Inv.readsAll (hC : C.Documented) (hi : Inv C h s) : ReadsAll h s where
  oneRead := by
    intro i j hv hv'
    obtain ⟨olds, heq, rfl, -⟩ := hi.stands.outstanding hv
    obtain ⟨olds', heq', rfl, -⟩ := hi.stands.outstanding hv'
    have hlength := congrArg List.length (heq.symm.trans heq')
    simpa using hlength
  kept := by
    intro hfailed
    rw [hi.written hfailed, hi.stands.given_eq hfailed]
  returned := by
    intro bytes hpc
    have hstands := hi.stands
    rw [hpc] at hstands
    obtain ⟨hok, hfailed, hgiven⟩ := hstands.returned
    obtain ⟨hclosed, hunread⟩ := hi.eof hok
    refine ⟨hclosed, hunread, ?_⟩
    rw [hi.written hfailed, hunread, hgiven, List.append_nil]
  failed := by
    intro e hpc
    have hstands := hi.stands
    rw [hpc] at hstands
    exact hi.reported e hstands.error
  awaits := by
    intro w hpc
    obtain ⟨cs, c, honces, hreceiver, hreachable⟩ := hi.suspended hpc
    refine ⟨c, ?_, hreceiver, fun v hsent => hC.wakes c hreachable v w hsent hreceiver⟩
    rw [honces, List.getLast?_concat]

theorem readsAll_of_run (hC : C.Documented) (hr : (system C).Run Lts.Free h s) : ReadsAll h s :=
  (inv_of_run hC hr).readsAll hC

/-- A byte arrives before the first poll of the read's future, the end of the pipe behind it. The
second handler has stored the end when `all` is polled, and wakes later. -/
def readOneByte : List ReadAllLabel :=
  [.poll 1, .once, .write [104], .complete 0 1, .sendStep 0, .receive, .sendStep 0, .once, .receive,
    .close, .complete 1 0, .sendStep 1, .poll 2, .receive, .sendStep 1]

def afterOneByte : ReadAll (Continuation.Slot Answer) (Continuation.StorePc Answer) where
  pc := .returned (.ok [104])
  buffer := [104]
  onces := [⟨⟨some (.ok [104]), none⟩, .sending (.ok [104]) .stored, .ready, []⟩,
    ⟨⟨some (.ok []), none⟩, .sending (.ok []) .stored, .ready, [1]⟩]
  pipe := ⟨[104], [], true⟩

theorem readsAll_oneByte : ReadsAll readOneByte.reverse afterOneByte :=
  readsAll_of_run (Continuation.documented_storeThenWake Answer)
    (Lts.path_of_exec readOneByte (by decide))

end ReadAll
end Kiruna.Stream.Macos
