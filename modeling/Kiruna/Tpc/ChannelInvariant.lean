import Kiruna.Tpc.Channel

/-!
# Permits and messages of the channel

The local semaphore of a level counts the messages of its queue that no receiver has claimed, up to
the senders between push and signal. Over all levels the local permits are the global ones, those
in the hands of receivers and those of senders between their two signals. A receiver that scans is
never past the last level that still has a permit: behind every level there are at least as many
local permits as receivers that have already passed the levels before it.
-/

namespace Kiruna.Tpc

namespace SendPc

variable {α : Type*}

/-- Pushed on level `l`, the local semaphore not yet signalled. -/
def unsignalled (l : ℕ) : SendPc α → ℕ
  | .signalLocal _ l' => if l' = l then 1 else 0
  | _ => 0

/-- Between the local and the global signal. -/
def betweenSignals : SendPc α → ℕ
  | .signalGlobal _ _ => 1
  | _ => 0

end SendPc

namespace RecvPc

variable {α : Type*}

/-- The local semaphore of level `l` is decremented, the message not yet popped. -/
def claims (l : ℕ) : RecvPc α → ℕ
  | .pop l' => if l' = l then 1 else 0
  | _ => 0

/-- Holds a permit of the global semaphore and none of a local one. -/
def holdsPermit : RecvPc α → ℕ
  | .immediateLocal _ | .restore | .scan _ => 1
  | _ => 0

/-- In the scan of `recv_all` at level `l` or behind it. -/
def scanning (l : ℕ) : RecvPc α → ℕ
  | .scan p => if l ≤ p then 1 else 0
  | _ => 0

def scanningAt (l : ℕ) : RecvPc α → ℕ
  | .scan p => if p = l then 1 else 0
  | _ => 0

/-- The receiver is not in one of its panics. -/
def Unpanicked : RecvPc α → Prop
  | .noElementFound | .unwrapNone | .indexOutOfBounds => False
  | _ => True

/-- `recv_immediate` runs at level 0 only, and nothing has panicked. -/
def Sound : RecvPc α → Prop
  | .immediate l | .immediateLocal l => l = 0
  | .noElementFound | .unwrapNone | .indexOutOfBounds => False
  | _ => True

theorem Sound.unpanicked {pc : RecvPc α} (h : pc.Sound) : pc.Unpanicked := by
  cases pc with
  | noElementFound | unwrapNone | indexOutOfBounds => exact h
  | _ => trivial

theorem scanning_eq (l : ℕ) (pc : RecvPc α) :
    pc.scanning l = pc.scanning (l + 1) + pc.scanningAt l := by
  cases pc with
  | scan p =>
      simp only [scanning, scanningAt]
      split_ifs <;> omega
  | _ => rfl

theorem scanning_le_holdsPermit (l : ℕ) (pc : RecvPc α) : pc.scanning l ≤ pc.holdsPermit := by
  cases pc with
  | scan p =>
      simp only [scanning, holdsPermit]
      split_ifs <;> omega
  | _ => simp [scanning]

end RecvPc

namespace Channel

variable {α : Type*} {bounded levels : ℕ} {s t : Channel α bounded}

/-- The local permits of level `l` and of the levels behind it. -/
def localsFrom (s : Channel α bounded) (l : ℕ) : ℕ :=
  weight SharedOne.localSemaphore (s.shared.drop l)

structure Inv (s : Channel α bounded) : Prop where
  queue : ∀ (l : ℕ) (one : SharedOne α bounded), s.shared[l]? = some one →
    one.queue.items.length = one.localSemaphore + weight (RecvPc.claims l) s.receivers +
      weight (SendPc.unsignalled l) s.senders
  permits : s.localsFrom 0 = s.globalSemaphore + weight RecvPc.holdsPermit s.receivers +
    weight SendPc.betweenSignals s.senders
  scans : ∀ l, 1 ≤ l → weight (RecvPc.scanning l) s.receivers ≤ s.localsFrom l
  sound : ∀ pc ∈ s.receivers, pc.Sound

theorem inv_new : Inv (new α bounded levels) where
  queue := by
    intro l one hl
    obtain rfl : one = ⟨.empty, 0⟩ :=
      List.eq_of_mem_replicate (List.mem_of_getElem? hl)
    rfl
  permits := by simp [new, localsFrom, weight]
  scans := by simp [new]
  sound := by simp [new]

/-- The scan bound for every level; at level 0 it follows from the balance of the permits. -/
theorem Inv.scanning_le (hi : Inv s) (l : ℕ) :
    weight (RecvPc.scanning l) s.receivers ≤ s.localsFrom l := by
  rcases Nat.eq_zero_or_pos l with rfl | hl
  · have hp := hi.permits
    have hw : weight (RecvPc.scanning 0) s.receivers ≤ weight RecvPc.holdsPermit s.receivers :=
      weight_mono fun pc _ => pc.scanning_le_holdsPermit 0
    omega
  · exact hi.scans l hl

/-- A receiver at level `l` of its scan leaves a permit behind it when it moves on. -/
theorem Inv.scanning_succ_lt (hi : Inv s) {i l : ℕ} {one : SharedOne α bounded}
    (hr : s.receivers[i]? = some (.scan l)) (hl : s.shared[l]? = some one)
    (hn : one.localSemaphore = 0) :
    weight (RecvPc.scanning (l + 1)) s.receivers < s.localsFrom (l + 1) := by
  have hle := hi.scanning_le l
  have hat := le_weight (w := RecvPc.scanningAt l) hr
  have hsum : weight (RecvPc.scanning l) s.receivers =
      weight (RecvPc.scanning (l + 1)) s.receivers + weight (RecvPc.scanningAt l) s.receivers := by
    rw [← weight_add]
    exact weight_congr fun pc _ => pc.scanning_eq l
  have hdrop : s.localsFrom l = one.localSemaphore + s.localsFrom (l + 1) := weight_drop hl
  simp only [RecvPc.scanningAt, if_pos] at hat
  omega

/-- A receiver in its scan is at a level of the channel. -/
theorem Inv.exists_level (hi : Inv s) {i l : ℕ} (hr : s.receivers[i]? = some (.scan l)) :
    s.shared[l]? ≠ none := by
  intro hl
  have hle := hi.scanning_le l
  have hat := le_weight (w := RecvPc.scanning l) hr
  rw [List.getElem?_eq_none_iff] at hl
  simp only [RecvPc.scanning, le_refl, if_true, localsFrom, List.drop_eq_nil_of_le hl,
    weight_nil] at hat hle
  omega

/-- A receiver that moves and leaves the levels alone. -/
theorem Inv.setReceiver (hi : Inv s) {i g : ℕ} {pc pc' : RecvPc α}
    (hr : s.receivers[i]? = some pc) (hc : ∀ l, pc'.claims l = pc.claims l)
    (hg : g + pc'.holdsPermit = s.globalSemaphore + pc.holdsPermit)
    (hscan : ∀ l, 1 ≤ l → pc'.scanning l ≤ pc.scanning l ∨
      weight (RecvPc.scanning l) s.receivers < s.localsFrom l) (hs : pc'.Sound) :
    Inv { s with globalSemaphore := g, receivers := s.receivers.set i pc' } where
  queue := by
    intro l one hl
    have hq := hi.queue l one hl
    have hw := weight_set (w := RecvPc.claims l) pc' hr
    have hl' := hc l
    dsimp only
    omega
  permits := by
    have hp := hi.permits
    have hw := weight_set (w := RecvPc.holdsPermit) pc' hr
    change s.localsFrom 0 = g + weight RecvPc.holdsPermit (s.receivers.set i pc') +
      weight SendPc.betweenSignals s.senders
    omega
  scans := by
    intro l hl
    have hs := hi.scans l hl
    have hw := weight_set (w := RecvPc.scanning l) pc' hr
    have hone : pc'.scanning l ≤ 1 := by
      cases pc' with
      | scan p =>
          simp only [RecvPc.scanning]
          split_ifs <;> omega
      | _ => simp [RecvPc.scanning]
    change weight (RecvPc.scanning l) (s.receivers.set i pc') ≤ s.localsFrom l
    rcases hscan l hl with h | h <;> omega
  sound := forall_mem_set hi.sound hs

/-- A sender that moves and leaves the levels alone. -/
theorem Inv.setSender (hi : Inv s) {i g : ℕ} {pc pc' : SendPc α}
    (hr : s.senders[i]? = some pc) (hu : ∀ l, pc'.unsignalled l = pc.unsignalled l)
    (hg : g + pc'.betweenSignals = s.globalSemaphore + pc.betweenSignals) :
    Inv { s with globalSemaphore := g, senders := s.senders.set i pc' } where
  queue := by
    intro l one hl
    have hq := hi.queue l one hl
    have hw := weight_set (w := SendPc.unsignalled l) pc' hr
    have hl' := hu l
    dsimp only
    omega
  permits := by
    have hp := hi.permits
    have hw := weight_set (w := SendPc.betweenSignals) pc' hr
    change s.localsFrom 0 = g + weight RecvPc.holdsPermit s.receivers +
      weight SendPc.betweenSignals (s.senders.set i pc')
    omega
  scans := hi.scans
  sound := hi.sound

/-- The local permits after one level has changed. -/
theorem localsFrom_set {k : ℕ} {one : SharedOne α bounded} (one' : SharedOne α bounded) (l : ℕ)
    (hk : s.shared[k]? = some one) (g : ℕ) (senders : List (SendPc α))
    (receivers : List (RecvPc α)) :
    localsFrom ⟨s.shared.set k one', g, senders, receivers⟩ l +
        (if l ≤ k then one.localSemaphore else 0) =
      s.localsFrom l + (if l ≤ k then one'.localSemaphore else 0) :=
  weight_drop_set one' l hk

theorem Inv.push (hi : Inv s) {i l : ℕ} {m : Message α} {one : SharedOne α bounded}
    {q : Fifo (Message α) bounded} (hs : s.senders[i]? = some (.push m l))
    (hl : s.shared[l]? = some one) (hq : q.items = one.queue.items ++ [m]) :
    Inv { s with
      shared := s.shared.set l { one with queue := q }
      senders := s.senders.set i (.signalLocal m l) } where
  queue := by
    intro k one' hk
    have hw := weight_set (w := SendPc.unsignalled k) (.signalLocal m l) hs
    simp only [SendPc.unsignalled] at hw
    rcases getElem?_set_cases hk with ⟨rfl, rfl⟩ | ⟨hne, hk⟩
    · have hold := hi.queue k one hl
      have hlen : q.items.length = one.queue.items.length + 1 := by simp [hq]
      simp only [if_true] at hw
      dsimp only
      omega
    · have hold := hi.queue k one' hk
      simp only [if_neg (Ne.symm hne)] at hw
      dsimp only
      omega
  permits := by
    have hp := hi.permits
    have hloc := localsFrom_set (s := s) { one with queue := q } 0 hl s.globalSemaphore
      (s.senders.set i (.signalLocal m l)) s.receivers
    have hw := weight_set (w := SendPc.betweenSignals) (.signalLocal m l) hs
    simp only [SendPc.betweenSignals] at hw
    dsimp only at hloc ⊢
    omega
  scans := by
    intro k hk
    have hold := hi.scans k hk
    have hloc := localsFrom_set (s := s) { one with queue := q } k hl s.globalSemaphore
      (s.senders.set i (.signalLocal m l)) s.receivers
    dsimp only at hloc ⊢
    omega
  sound := hi.sound

theorem Inv.signalLocal (hi : Inv s) {i l : ℕ} {m : Message α} {one : SharedOne α bounded}
    (hs : s.senders[i]? = some (.signalLocal m l)) (hl : s.shared[l]? = some one) :
    Inv { s with
      shared := s.shared.set l { one with localSemaphore := one.localSemaphore + 1 }
      senders := s.senders.set i (.signalGlobal m l) } where
  queue := by
    intro k one' hk
    have hw := weight_set (w := SendPc.unsignalled k) (.signalGlobal m l) hs
    simp only [SendPc.unsignalled] at hw
    rcases getElem?_set_cases hk with ⟨rfl, rfl⟩ | ⟨hne, hk⟩
    · have hold := hi.queue k one hl
      simp only [if_true] at hw
      dsimp only
      omega
    · have hold := hi.queue k one' hk
      simp only [if_neg (Ne.symm hne)] at hw
      dsimp only
      omega
  permits := by
    have hp := hi.permits
    have hloc := localsFrom_set (s := s) { one with localSemaphore := one.localSemaphore + 1 } 0 hl
      s.globalSemaphore (s.senders.set i (.signalGlobal m l)) s.receivers
    have hw := weight_set (w := SendPc.betweenSignals) (.signalGlobal m l) hs
    simp only [SendPc.betweenSignals] at hw
    simp only [Nat.zero_le, if_true] at hloc
    dsimp only at hloc ⊢
    omega
  scans := by
    intro k hk
    have hold := hi.scans k hk
    have hloc := localsFrom_set (s := s) { one with localSemaphore := one.localSemaphore + 1 } k hl
      s.globalSemaphore (s.senders.set i (.signalGlobal m l)) s.receivers
    dsimp only at hloc ⊢
    split_ifs at hloc <;> omega
  sound := hi.sound

/-- A receiver claims a message of level `l`: it is at the level itself, so that no receiver
behind the level loses a permit. -/
theorem Inv.takeLocal (hi : Inv s) {i l n : ℕ} {pc : RecvPc α} {one : SharedOne α bounded}
    (hr : s.receivers[i]? = some pc) (hpc : pc = .immediateLocal l ∨ pc = .scan l)
    (hl : s.shared[l]? = some one) (hn : one.localSemaphore = n + 1) :
    Inv { s with
      shared := s.shared.set l { one with localSemaphore := n }
      receivers := s.receivers.set i (.pop l) } where
  queue := by
    intro k one' hk
    have hw := weight_set (w := RecvPc.claims k) (.pop l) hr
    have hnone : pc.claims k = 0 := by rcases hpc with rfl | rfl <;> rfl
    rw [hnone] at hw
    simp only [RecvPc.claims] at hw
    rcases getElem?_set_cases hk with ⟨rfl, rfl⟩ | ⟨hne, hk⟩
    · have hold := hi.queue k one hl
      simp only [if_true] at hw
      dsimp only
      omega
    · have hold := hi.queue k one' hk
      simp only [if_neg (Ne.symm hne)] at hw
      dsimp only
      omega
  permits := by
    have hp := hi.permits
    have hloc := localsFrom_set (s := s) { one with localSemaphore := n } 0 hl
      s.globalSemaphore s.senders (s.receivers.set i (.pop l))
    have hw := weight_set (w := RecvPc.holdsPermit) (.pop l) hr
    have hone : pc.holdsPermit = 1 := by rcases hpc with rfl | rfl <;> rfl
    rw [hone] at hw
    simp only [RecvPc.holdsPermit] at hw
    simp only [Nat.zero_le, if_true] at hloc
    dsimp only at hloc ⊢
    omega
  scans := by
    intro k hk
    have hold := hi.scans k hk
    have hloc := localsFrom_set (s := s) { one with localSemaphore := n } k hl
      s.globalSemaphore s.senders (s.receivers.set i (.pop l))
    have hw := weight_set (w := RecvPc.scanning k) (.pop l) hr
    rcases hpc with rfl | rfl
    · -- a permit of level 0 is taken, the bound speaks of the levels behind it
      obtain rfl : l = 0 := hi.sound _ (List.mem_of_getElem? hr)
      simp only [RecvPc.scanning] at hw
      simp only [if_neg (Nat.not_le.mpr hk)] at hloc
      dsimp only at hloc ⊢
      omega
    · simp only [RecvPc.scanning] at hw
      dsimp only at hloc ⊢
      split_ifs at hloc hw <;> omega
  sound := forall_mem_set hi.sound trivial

theorem Inv.pop (hi : Inv s) {i l : ℕ} {m : Message α} {one : SharedOne α bounded}
    {q : Fifo (Message α) bounded} (hr : s.receivers[i]? = some (.pop l))
    (hl : s.shared[l]? = some one) (hq : one.queue.items = m :: q.items) :
    Inv { s with
      shared := s.shared.set l { one with queue := q }
      receivers := s.receivers.set i (.holding m l) } where
  queue := by
    intro k one' hk
    have hw := weight_set (w := RecvPc.claims k) (.holding m l) hr
    simp only [RecvPc.claims] at hw
    rcases getElem?_set_cases hk with ⟨rfl, rfl⟩ | ⟨hne, hk⟩
    · have hold := hi.queue k one hl
      have hlen : one.queue.items.length = q.items.length + 1 := by simp [hq]
      simp only [if_true] at hw
      dsimp only
      omega
    · have hold := hi.queue k one' hk
      simp only [if_neg (Ne.symm hne)] at hw
      dsimp only
      omega
  permits := by
    have hp := hi.permits
    have hloc := localsFrom_set (s := s) { one with queue := q } 0 hl
      s.globalSemaphore s.senders (s.receivers.set i (.holding m l))
    have hw := weight_set (w := RecvPc.holdsPermit) (.holding m l) hr
    simp only [RecvPc.holdsPermit] at hw
    dsimp only at hloc ⊢
    omega
  scans := by
    intro k hk
    have hold := hi.scans k hk
    have hloc := localsFrom_set (s := s) { one with queue := q } k hl
      s.globalSemaphore s.senders (s.receivers.set i (.holding m l))
    have hw := weight_set (w := RecvPc.scanning k) (.holding m l) hr
    simp only [RecvPc.scanning] at hw
    dsimp only at hloc ⊢
    omega
  sound := forall_mem_set hi.sound trivial

/-- The queue of a claimed level is not empty. -/
theorem Inv.queue_ne_nil (hi : Inv s) {i l : ℕ} {one : SharedOne α bounded}
    (hr : s.receivers[i]? = some (.pop l)) (hl : s.shared[l]? = some one) :
    one.queue.items ≠ [] := by
  have hq := hi.queue l one hl
  have hw := le_weight (w := RecvPc.claims l) hr
  simp only [RecvPc.claims, if_true] at hw
  exact List.ne_nil_of_length_pos (by omega)

/-- A receiver with a permit finds a level 0. -/
theorem Inv.exists_level_zero (hi : Inv s) {i : ℕ} {pc : RecvPc α}
    (hr : s.receivers[i]? = some pc) (hp : pc.holdsPermit = 1) : s.shared[0]? ≠ none := by
  intro hl
  have hper := hi.permits
  have hle := le_weight (w := RecvPc.holdsPermit) hr
  rw [List.getElem?_eq_none_iff] at hl
  simp only [localsFrom, List.drop_eq_nil_of_le hl, weight_nil] at hper
  omega

theorem Inv.effect (hi : Inv s) (he : Effect s t) : Inv t := by
  cases he with
  | send e l =>
      exact {
        queue := fun k one hk => by simpa [SendPc.unsignalled] using hi.queue k one hk
        permits := by simpa [SendPc.betweenSignals, localsFrom] using hi.permits
        scans := hi.scans
        sound := hi.sound }
  | sendPanicked hs => exact hi.setSender hs (fun _ => rfl) rfl
  | push hs hl hq => exact hi.push hs hl hq
  | signalLocal hs hl => exact hi.signalLocal hs hl
  | signalGlobal hs => exact hi.setSender hs (fun _ => rfl) rfl
  | recv hpc =>
      exact {
        queue := fun k one hk => by
          rcases hpc with rfl | rfl <;> simpa [RecvPc.claims] using hi.queue k one hk
        permits := by
          rcases hpc with rfl | rfl <;> simpa [RecvPc.holdsPermit, localsFrom] using hi.permits
        scans := fun k hk => by
          rcases hpc with rfl | rfl <;>
            simpa [RecvPc.scanning, localsFrom] using hi.scans k hk
        sound := by
          intro pc' hm
          rcases List.mem_append.mp hm with hm | hm
          · exact hi.sound pc' hm
          · obtain rfl := List.mem_singleton.mp hm
            rcases hpc with rfl | rfl
            · trivial
            · rfl }
  | takeGlobal hr hpc hn =>
      rcases hpc with ⟨rfl, rfl⟩ | ⟨l, rfl, rfl⟩
      · refine hi.setReceiver hr (fun _ => rfl) hn.symm (fun k hk => .inl ?_) trivial
        simp only [RecvPc.scanning, if_neg (Nat.not_le.mpr hk), le_refl]
      · exact hi.setReceiver hr (fun _ => rfl) hn.symm (fun _ _ => .inl le_rfl)
          (hi.sound (.immediate l) (List.mem_of_getElem? hr))
  | nothing hr => exact hi.setReceiver hr (fun _ => rfl) rfl (fun _ _ => .inl le_rfl) trivial
  | takeLocal hr hpc hl hn => exact hi.takeLocal hr hpc hl hn
  | @missLocal i l pc pc' one hr hpc hl hn =>
      rcases hpc with ⟨rfl, rfl⟩ | ⟨rfl, rfl⟩
      · exact hi.setReceiver hr (fun _ => rfl) rfl (fun _ _ => .inl le_rfl) trivial
      · refine hi.setReceiver hr (fun _ => rfl) rfl (fun k _ => ?_) trivial
        -- only the bound of the level it moves to gains a receiver
        by_cases hk : k = l + 1
        · subst hk
          exact .inr (hi.scanning_succ_lt hr hl hn)
        · refine .inl ?_
          simp only [RecvPc.scanning]
          split_ifs <;> omega
  | fallThrough hr hpc hl =>
      rcases hpc with ⟨rfl, rfl⟩ | ⟨rfl, rfl⟩
      · obtain rfl := hi.sound _ (List.mem_of_getElem? hr)
        exact absurd hl (hi.exists_level_zero hr rfl)
      · exact absurd hl (hi.exists_level hr)
  | restore hr => exact hi.setReceiver hr (fun _ => rfl) rfl (fun _ _ => .inl le_rfl) trivial
  | pop hr hl hq => exact hi.pop hr hl hq
  | popEmpty hr hl hq => exact absurd hq (hi.queue_ne_nil hr hl)
  | recvReturned hr => exact hi.setReceiver hr (fun _ => rfl) rfl (fun _ _ => .inl le_rfl) trivial

theorem inv_of_run {h : List (ChannelLabel α)}
    (hr : (system α bounded levels).Run OnlyLevelZero h s) : Inv s :=
  hr.invariant (fun _ _ _ hi hok hst => hi.effect (effect_of_step hok hst)) inv_new

/-- No receiver is in one of the panics of the receive side. -/
def Unpanicked (s : Channel α bounded) : Prop := ∀ pc ∈ s.receivers, pc.Unpanicked

/-- The receive side does not panic, not even when a send finds its queue full. -/
theorem unpanicked_of_run {h : List (ChannelLabel α)}
    (hr : (system α bounded levels).Run OnlyLevelZero h s) : s.Unpanicked :=
  fun pc hpc => ((inv_of_run hr).sound pc hpc).unpanicked

/-- A `recv_immediate` that finds the only message on the other level and a `recv_all` that gets
it, while a second sender has not signalled yet. -/
def missThenScan : List (ChannelLabel ℕ) :=
  [.recvAll, .send 7 1, .sendStep 0, .sendStep 0, .sendStep 0, .recvImmediate 0, .recvStep 1,
    .recvStep 1, .send 8 0, .sendStep 1, .recvStep 1, .recvStep 0, .recvStep 0, .recvStep 0,
    .recvStep 0]

theorem unpanicked_missThenScan :
    Unpanicked (⟨[⟨⟨[⟨1, 8⟩], by decide⟩, 0⟩, ⟨.empty, 0⟩], 0,
      [.returned ⟨0, 7⟩ 1, .signalLocal ⟨1, 8⟩ 0], [.holding ⟨0, 7⟩ 1, .returned none]⟩ :
      Channel ℕ 4) :=
  unpanicked_of_run (show (system ℕ 4 2).Run OnlyLevelZero _ _ from
    Lts.path_of_exec missThenScan (by decide))

end Channel
end Kiruna.Tpc
