import Kiruna.Stream.MacosRead

/-!
# The end of a read on macOS

The steps of `all`, of the system and of its handlers come to an end, if `all` is polled only when
it has been woken. Every completed read takes bytes from the pipe, or it is the last one; and what
is sent to `all` is taken before the next read begins. When nothing is left to do and the writer has
closed its end, `all` has returned.
-/

namespace Kiruna.Stream.Macos.ReadAll

open Continuation (Pair Receiver Sender)

variable {σ τ : Type*} (C : Continuation Answer σ τ)

/-- A step of `all`, of the system or of a handler. After its first poll, `all` is polled when its
waker has been woken. -/
def Own (s : ReadAll σ τ) : ReadAllLabel → Prop
  | .poll _ => s.pc = .created ∨
      ∃ w c, s.pc = .suspended w ∧ s.onces.getLast? = some c ∧ w ∈ c.woken
  | .once | .receive | .complete _ _ | .fail _ _ _ | .sendStep _ => True
  | .write _ | .close => False

/-- Nothing is left to do. -/
def Still (s : ReadAll σ τ) : Prop := ∀ a, Own s a → (system C).step s a = none

/-- The last future has been woken. -/
def awake (cs : List (Pair Answer σ τ)) : Bool := cs.getLast?.any fun c => c.woken ≠ []

/-- The steps of the handler that are left. -/
def sendToGo (c : Pair Answer σ τ) : ℕ :=
  match c.sender with
  | .unsent => C.sendSteps + 2
  | .sending _ p => C.left p + 1
  | .sent _ => 0

/-- The steps of `all` that are left of a round, and those of the handler of a read to come. -/
def rank (pc : AllPc) (cs : List (Pair Answer σ τ)) : ℕ :=
  match pc with
  | .created => C.sendSteps + 7
  | .once _ => C.sendSteps + 6
  | .receive _ => if awake cs then 1 else 3
  | .suspended _ => 2
  | .returned _ => 0

/-- A round for every byte in the pipe, one for what has arrived, and the one under way. -/
def toGo (s : ReadAll σ τ) : ℕ :=
  (C.sendSteps + 6) * (s.pipe.unread.length + min 1 (arrived s.pc s.values).length) +
    rank C s.pc s.onces + weight (sendToGo C) s.onces

variable {C} {s t : ReadAll σ τ} {a : ReadAllLabel} {h : List ReadAllLabel}
  {cs : List (Pair Answer σ τ)} {c c' : Pair Answer σ τ} {i w : ℕ}

@[simp] theorem awake_append (cs : List (Pair Answer σ τ)) (c : Pair Answer σ τ) :
    awake (cs ++ [c]) = decide (c.woken ≠ []) := by
  simp [awake]

theorem awake_of_mem (honces : s.onces.getLast? = some c) (hw : w ∈ c.woken) :
    awake s.onces = true := by
  rw [awake, honces]
  simp [List.ne_nil_of_mem hw]

theorem awake_set (hc : cs[i]? = some c) (hwoken : c.woken <+: c'.woken) (h : awake cs = true) :
    awake (cs.set i c') = true := by
  simp only [awake, List.getLast?_eq_getElem?, List.length_set] at h ⊢
  by_cases hi : i = cs.length - 1
  · subst hi
    rw [hc] at h
    rw [List.getElem?_set_self (List.getElem?_eq_some_iff.mp hc).1]
    have hne : c.woken ≠ [] := by simpa using h
    have hne' : c'.woken ≠ [] := fun hnil => hne (List.prefix_nil.mp (hnil ▸ hwoken))
    simpa using hne'
  · rw [List.getElem?_set_ne hi]
    exact h

theorem rank_le {cs' : List (Pair Answer σ τ)} (pc : AllPc)
    (h : awake cs = true → awake cs' = true) : rank C pc cs' ≤ rank C pc cs := by
  cases pc with
  | receive w =>
      simp only [rank]
      split_ifs with hawake hawake'
      · exact Nat.le_refl 1
      · omega
      · exact absurd (h ‹_›) hawake
      · exact Nat.le_refl 3
  | _ => exact Nat.le_refl _

theorem sendToGo_lt (hC : C.Documented) (h : C.sendStep c = some c') :
    sendToGo C c' < sendToGo C c := by
  unfold Continuation.sendStep at h
  split at h
  · rename_i v p hsender
    split at h
    · rename_i shared p' woken hsend
      cases h
      simp only [sendToGo, hsender]
      exact Nat.succ_lt_succ (hC.left_lt _ _ _ hsend)
    · cases h
      simp only [sendToGo, hsender]
      exact Nat.succ_pos _
  · cases h

theorem weight_set_lt (hc : cs[i]? = some c) (h : sendToGo C c' < sendToGo C c) :
    weight (sendToGo C) (cs.set i c') < weight (sendToGo C) cs := by
  have hweight := weight_set (w := sendToGo C) c' hc
  omega

/-- A step that brings no more to take, but goes on. -/
theorem toGo_lt_of (hdata : t.pipe.unread.length + min 1 (arrived t.pc t.values).length ≤
      s.pipe.unread.length + min 1 (arrived s.pc s.values).length)
    (hlt : rank C t.pc t.onces + weight (sendToGo C) t.onces <
      rank C s.pc s.onces + weight (sendToGo C) s.onces) : t.toGo C < s.toGo C := by
  have hrounds := Nat.mul_le_mul_left (C.sendSteps + 6) hdata
  simp only [toGo]
  omega

/-- A poll of the last future leaves the handler where it is. -/
theorem weight_await {r : Option Answer} (cs : List (Pair Answer σ τ))
    (hawait : C.await c w = some (c', r)) :
    weight (sendToGo C) (cs ++ [c']) = weight (sendToGo C) (cs ++ [c]) := by
  obtain ⟨-, hsender, -, -⟩ := Continuation.await_eq_some hawait
  simp only [weight_append, weight_cons, weight_nil, sendToGo, hsender]

theorem toGo_once (hpc : s.pc = .once w) :
    toGo C { s with pc := .receive w, onces := s.onces ++ [C.pair] } < s.toGo C := by
  have hpair : awake (s.onces ++ [C.pair]) = false := by simp [Continuation.pair]
  have hsend : sendToGo C C.pair = C.sendSteps + 2 := rfl
  apply toGo_lt_of
  · simp [hpc, arrived, values, Continuation.pair, Pair.value, data]
  · simp only [hpc, rank, hpair, weight_append, weight_cons, weight_nil, hsend,
      Bool.false_eq_true, ↓reduceIte]
    omega

/-- The waker of the last poll was not woken, since the poll was not ready. -/
theorem toGo_pending (hC : C.Documented) (hi : Inv C h s) (hpc : s.pc = .receive w)
    (honces : s.onces = cs ++ [c]) (hawait : C.await c w = some (c', none)) :
    toGo C { s with pc := .suspended w, onces := cs ++ [c'] } < s.toGo C := by
  obtain ⟨hvalues, -⟩ := hi.await honces hawait
  have hwoken : c.woken = [] := by
    by_contra hne
    exact hC.prompt c (hi.reachable_last honces) hne w c' hawait
  apply toGo_lt_of
  · simp only [values, hvalues, hpc, arrived]
    exact Nat.le_refl _
  · rw [weight_await cs hawait, hpc, honces]
    simp [rank, hwoken]

theorem toGo_received (hC : C.Documented) (hi : Inv C h s) {answer : Answer}
    (hpc : s.pc = .receive w) (honces : s.onces = cs ++ [c])
    (hawait : C.await c w = some (c', some answer)) :
    toGo C ({ s with onces := cs ++ [c'] }.received w answer) < s.toGo C := by
  have hvalue := hC.value c (hi.reachable_last honces) w c' answer hawait
  have harrived : arrived s.pc s.values = data (some answer) := by
    simp [hpc, arrived, values, honces, hvalue]
  have hweight := weight_await cs hawait
  have hrank : 1 ≤ rank C s.pc s.onces := by
    rw [hpc, rank]
    split_ifs <;> decide
  cases answer with
  | error e =>
      apply toGo_lt_of
      · exact Nat.add_le_add_left (Nat.zero_le _) _
      · simp only [received, rank, honces, hweight] at hrank ⊢
        omega
  | ok newData =>
      by_cases hempty : newData.length = 0
      · apply toGo_lt_of
        · simp only [received, if_pos hempty, arrived, List.length_nil]
          exact Nat.add_le_add_left (Nat.zero_le _) _
        · simp only [received, if_pos hempty, rank, honces, hweight] at hrank ⊢
          omega
      · -- the round that is taken pays for the next
        have htaken : min 1 newData.length = 1 := Nat.min_eq_left (Nat.pos_of_ne_zero hempty)
        simp only [toGo, harrived, data, htaken, Nat.mul_add, Nat.mul_one]
        simp only [received, if_neg hempty, arrived, rank, honces, hweight, List.length_nil,
          Nat.min_zero, Nat.mul_zero] at hrank ⊢
        omega

/-- A completed read takes a byte for the round that it gives `all` to do. -/
theorem toGo_endRead (hC : C.Documented) (hi : Inv C h s) {n : ℕ} {err : Int32}
    (hc : s.onces[i]? = some c) (hcall : C.call c (handler (s.pipe.unread.take n) err) = some c')
    (hle : n ≤ s.pipe.unread.length) :
    toGo C { s with
      onces := s.onces.set i c'
      pipe := { s.pipe with unread := s.pipe.unread.drop n } } < s.toGo C := by
  obtain ⟨hunsent, rfl⟩ := Continuation.call_eq_some hcall
  have hnone : s.values[i]? = some none := by
    rw [values, List.getElem?_map, hc, Option.map_some, Continuation.value_eq_none.mpr hunsent]
  obtain ⟨olds, holds, rfl, -, ⟨w, hpc⟩, -⟩ := hi.stands.outstanding hnone
  have hdata : (data (some (handler (s.pipe.unread.take n) err))).length ≤ n := by
    unfold handler
    split_ifs
    · exact List.length_take_le _ _
    · exact Nat.zero_le n
  generalize hanswer : handler (s.pipe.unread.take n) err = answer at hdata
  have hold : arrived s.pc s.values = [] := by
    rcases hpc with hpc | hpc <;> simp [hpc, holds, arrived, data]
  have hnew : arrived s.pc (olds ++ [some answer]) = data (some answer) := by
    rcases hpc with hpc | hpc <;> simp [hpc, arrived]
  apply toGo_lt_of
  · simp only [values, values_set holds, Pair.value, hold, hnew, List.length_drop, List.length_nil]
    omega
  · have hwoken : c.woken <+: { c with sender := .sending answer (C.start answer) }.woken :=
      List.prefix_refl _
    have hrank := rank_le (C := C) s.pc (awake_set hc hwoken)
    apply Nat.add_lt_add_of_le_of_lt hrank (weight_set_lt hc ?_)
    have hstart := hC.left_start answer
    simp only [sendToGo, hunsent]
    omega

theorem toGo_sendStep (hC : C.Documented) (hc : s.onces[i]? = some c)
    (hstep : C.sendStep c = some c') :
    toGo C { s with onces := s.onces.set i c' } < s.toGo C := by
  obtain ⟨-, hvalue, hwoken⟩ := Continuation.sendStep_eq_some hstep
  apply toGo_lt_of
  · simp only [values, map_set_of_eq hc hvalue]
    exact Nat.le_refl _
  · have hrank := rank_le (C := C) s.pc (awake_set hc hwoken)
    exact Nat.add_lt_add_of_le_of_lt hrank (weight_set_lt hc (sendToGo_lt hC hstep))

theorem toGo_lt (hC : C.Documented) (hi : Inv C h s) (hown : Own s a) (hst : Steps C s a t) :
    t.toGo C < s.toGo C := by
  cases hst with
  | poll hpc =>
      apply toGo_lt_of
      · simp [hpc, arrived]
      · simp [hpc, rank]
  | repoll hpc =>
      have hawake : awake s.onces = true := by
        rcases hown with hcreated | ⟨v, c, -, honces, hw⟩
        · rw [hpc] at hcreated
          cases hcreated
        · exact awake_of_mem honces hw
      apply toGo_lt_of
      · simp [hpc, arrived]
      · simp [hpc, rank, hawake]
  | once hpc => exact toGo_once hpc
  | received hpc honces hawait => exact toGo_received hC hi hpc honces hawait
  | pending hpc honces hawait => exact toGo_pending hC hi hpc honces hawait
  | endRead hc hcall hle => exact toGo_endRead hC hi hc hcall hle
  | sendStep hc hstep => exact toGo_sendStep hC hc hstep
  | write => cases hown
  | close => cases hown

/-- Only the writer writes and closes. -/
theorem pipe_of_own (hown : Own s a) (hst : Steps C s a t) :
    t.pipe.written = s.pipe.written ∧ t.pipe.closed = s.pipe.closed := by
  cases hst with
  | poll | repoll | once | pending | endRead | sendStep => exact ⟨rfl, rfl⟩
  | received =>
      rw [(received_frame _ _ _).2]
      exact ⟨rfl, rfl⟩
  | write => cases hown
  | close => cases hown

theorem Inv.receives (hi : Inv C h s) (hpc : s.pc = .receive w) :
    ∃ cs c, s.onces = cs ++ [c] ∧ c.receiver ≠ .ready := by
  have hstands := hi.stands
  rw [hpc] at hstands
  obtain ⟨olds, v, heq, -⟩ := hstands.waits
  obtain ⟨cs, c, honces, hpolls, -⟩ := hi.last (by simp [heq])
  rw [hpc] at hpolls
  exact ⟨cs, c, honces, hpolls⟩

theorem Still.returned (hC : C.Documented) (hstill : Still C s) (hi : Inv C h s)
    (hclosed : s.pipe.closed = true) : ∃ r, s.pc = .returned r := by
  have hstands := hi.stands
  cases hpc : s.pc with
  | created =>
      have hnone := hstill (.poll 0) (.inl hpc)
      simp [system, step, hpc] at hnone
  | once w =>
      have hnone := hstill .once trivial
      simp [system, step, hpc] at hnone
  | receive w =>
      obtain ⟨cs, c, honces, hready⟩ := hi.receives hpc
      obtain ⟨r, hawait⟩ := Continuation.exists_await (C := C) w hready
      have hnone := hstill .receive trivial
      obtain ⟨c', r⟩ := r
      cases r <;> simp [system, step, hpc, honces, hawait] at hnone
  | suspended w =>
      obtain ⟨cs, c, honces, hreceiver, hreachable⟩ := hi.suspended hpc
      have hc : s.onces[cs.length]? = some c := by
        rw [honces, List.getElem?_concat_length]
      cases hsender : c.sender with
      | unsent =>
          have hnone := hstill (.complete cs.length s.pipe.unread.length) trivial
          simp [system, step, endRead, hc, Continuation.call, hsender, hclosed] at hnone
      | sending v p =>
          have hnone := hstill (.sendStep cs.length) trivial
          simp only [system, step, hc, Continuation.sendStep, hsender] at hnone
          split at hnone <;> cases hnone
      | sent v =>
          have hwoken := hC.wakes c hreachable v w hsender hreceiver
          have hlast : s.onces.getLast? = some c := by rw [honces, List.getLast?_concat]
          have hnone := hstill (.poll 0) (.inr ⟨w, c, hpc, hlast, hwoken⟩)
          simp [system, step, hpc] at hnone
  | returned r => exact ⟨r, rfl⟩

/-- `Read::all` returns. -/
structure Returns (C : Continuation Answer σ τ) (h : List ReadAllLabel) (s : ReadAll σ τ) :
    Prop where
  ends : ∀ h' t, (system C).Path Own s h' t → h'.length ≤ s.toGo C
  returned : s.pipe.closed = true → ∀ h' t, (system C).Path Own s h' t → Still C t →
    t.pc = .returned (.ok s.pipe.written) ∨
      ∃ e i n, t.pc = .returned (.error e) ∧ .fail i n e.code ∈ h' ++ h

theorem returns_of_run (hC : C.Documented) (hr : (system C).Run Lts.Free h s) :
    Returns C h s := by
  have hall : ∀ h' t, (system C).Path Own s h' t → Inv C (h' ++ h) t ∧
      h'.length + t.toGo C ≤ s.toGo C ∧ t.pipe.written = s.pipe.written ∧
      t.pipe.closed = s.pipe.closed := by
    intro h' t hp
    refine hp.induct (P := fun h' t => Inv C (h' ++ h) t ∧ h'.length + t.toGo C ≤ s.toGo C ∧
      t.pipe.written = s.pipe.written ∧ t.pipe.closed = s.pipe.closed) ?_ ?_
    · exact ⟨inv_of_run hC hr, by simp, rfl, rfl⟩
    · rintro h' t a u _ ⟨hi, hle, hwritten, hclosed⟩ hown hst
      have hlt := toGo_lt hC hi hown (steps_of_step hst)
      have hpipe := pipe_of_own hown (steps_of_step hst)
      refine ⟨hi.steps hC (steps_of_step hst), ?_, hpipe.1.trans hwritten, hpipe.2.trans hclosed⟩
      rw [List.length_cons]
      omega
  refine ⟨fun h' t hp => ?_, fun hclosed h' t hp hstill => ?_⟩
  · have hle := (hall h' t hp).2.1
    omega
  · obtain ⟨hi, -, hwritten, hpipe⟩ := hall h' t hp
    obtain ⟨r, hpc⟩ := hstill.returned hC hi (hpipe.trans hclosed)
    have hreads := hi.readsAll hC
    cases r with
    | ok bytes =>
        rw [← hwritten, ← (hreads.returned bytes hpc).2.2]
        exact .inl hpc
    | error e =>
        obtain ⟨i, n, hmem⟩ := hreads.failed e hpc
        exact .inr ⟨e, i, n, hpc, hmem⟩

/-- Two bytes are in the pipe when the writer closes its end, and the first read is outstanding. -/
def closeEarly : List ReadAllLabel := [.poll 1, .once, .write [104, 105], .receive, .close]

def afterCloseEarly : ReadAll (Continuation.Slot Answer) (Continuation.StorePc Answer) where
  pc := .suspended 1
  buffer := []
  onces := [⟨⟨none, some 1⟩, .unsent, .pending 1, []⟩]
  pipe := ⟨[104, 105], [104, 105], true⟩

theorem returns_closeEarly :
    Returns (Continuation.storeThenWake Answer) closeEarly.reverse afterCloseEarly :=
  returns_of_run (Continuation.documented_storeThenWake Answer)
    (Lts.path_of_exec closeEarly (by decide))

end Kiruna.Stream.Macos.ReadAll
