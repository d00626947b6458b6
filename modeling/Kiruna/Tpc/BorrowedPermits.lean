import Kiruna.Tpc.ChannelInvariant

/-!
# Borrowed permits of the channel

A `recv_immediate` takes a global permit before it knows whether the permit belongs to its level,
and gives it back if not. A receiver that has passed level 0 did so because that level had no local
permit, so the permit in its hands belongs to a level behind it. Hence the local permits of level 0
are covered by the global semaphore, by the receivers that have still to look at level 0 and by the
senders of level 0 between their two signals.
-/

namespace Kiruna.Tpc

namespace SendPc

variable {α : Type*}

/-- Between the signals of a message of level `l`. -/
def betweenSignalsAt (l : ℕ) : SendPc α → ℕ
  | .signalGlobal _ l' => if l' = l then 1 else 0
  | _ => 0

/-- Between the signals of a message behind level 0. -/
def betweenBehind : SendPc α → ℕ
  | .signalGlobal _ (_ + 1) => 1
  | _ => 0

theorem betweenSignals_eq (pc : SendPc α) :
    pc.betweenSignals = pc.betweenSignalsAt 0 + pc.betweenBehind := by
  cases pc with
  | signalGlobal m l => cases l <;> rfl
  | _ => rfl

end SendPc

namespace RecvPc

variable {α : Type*}

/-- Holds a global permit and has not yet examined level 0. -/
def seeksZero : RecvPc α → ℕ
  | .immediateLocal 0 | .scan 0 => 1
  | _ => 0

/-- Holds a global permit and has found level 0 without a local one. -/
def passedZero : RecvPc α → ℕ
  | .restore | .scan (_ + 1) => 1
  | _ => 0

theorem Sound.holdsPermit_eq {pc : RecvPc α} (h : pc.Sound) :
    pc.holdsPermit = pc.seeksZero + pc.passedZero := by
  cases pc with
  | immediateLocal l =>
      obtain rfl : l = 0 := h
      rfl
  | scan l => cases l <;> rfl
  | _ => rfl

end RecvPc

namespace Channel

variable {α : Type*} {bounded levels : ℕ} {s t : Channel α bounded}

/-- The permits that have left level 0 behind are covered by the local permits behind it. -/
def Behind (s : Channel α bounded) : Prop :=
  weight RecvPc.passedZero s.receivers + weight SendPc.betweenBehind s.senders ≤ s.localsFrom 1

theorem weight_betweenSignals (senders : List (SendPc α)) :
    weight SendPc.betweenSignals senders =
      weight (SendPc.betweenSignalsAt 0) senders + weight SendPc.betweenBehind senders := by
  rw [← weight_add]
  exact weight_congr fun pc _ => pc.betweenSignals_eq

theorem Inv.weight_holdsPermit (hi : Inv s) :
    weight RecvPc.holdsPermit s.receivers =
      weight RecvPc.seeksZero s.receivers + weight RecvPc.passedZero s.receivers := by
  rw [← weight_add]
  exact weight_congr fun pc hpc => (hi.sound pc hpc).holdsPermit_eq

/-- The local semaphore of a level: its messages that no receiver has claimed. -/
def unclaimed (s : Channel α bounded) (l : ℕ) : ℕ :=
  s.shared[l]?.elim 0 SharedOne.localSemaphore

theorem localsFrom_eq (s : Channel α bounded) (l : ℕ) :
    s.localsFrom l = s.unclaimed l + s.localsFrom (l + 1) := by
  cases hl : s.shared[l]? with
  | none =>
      have hlen := List.getElem?_eq_none_iff.mp hl
      simp [localsFrom, unclaimed, hl, List.drop_eq_nil_of_le hlen,
        List.drop_eq_nil_of_le (Nat.le_succ_of_le hlen)]
  | some one =>
      simp only [unclaimed, hl, Option.elim_some]
      exact weight_drop hl

/-- A receiver moves and the levels stay. -/
theorem Behind.receiver (hb : Behind s) {i g : ℕ} {pc pc' : RecvPc α}
    (hr : s.receivers[i]? = some pc) (hpc : pc'.passedZero ≤ pc.passedZero) :
    Behind { s with globalSemaphore := g, receivers := s.receivers.set i pc' } := by
  have hw := weight_set (w := RecvPc.passedZero) pc' hr
  have hold := hb
  unfold Behind at hold ⊢
  change weight _ (s.receivers.set i pc') + weight _ s.senders ≤ s.localsFrom 1
  omega

/-- A receiver that finds no local permit at level 0 holds a permit of a level behind it. -/
theorem Inv.miss (hi : Inv s) {i : ℕ} {pc pc' : RecvPc α}
    (hr : s.receivers[i]? = some pc) (hseeks : pc.seeksZero = 1) (hpc : pc'.passedZero ≤ 1)
    (hn : s.unclaimed 0 = 0) : Behind { s with receivers := s.receivers.set i pc' } := by
  have hw := weight_set (w := RecvPc.passedZero) pc' hr
  have hle := le_weight (w := RecvPc.seeksZero) hr
  have hpermits := hi.permits
  have hholds := hi.weight_holdsPermit
  have hbetween := weight_betweenSignals s.senders
  have hlocals : s.localsFrom 0 = s.unclaimed 0 + s.localsFrom 1 := s.localsFrom_eq 0
  unfold Behind
  change weight _ (s.receivers.set i pc') + weight _ s.senders ≤ s.localsFrom 1
  omega

theorem Behind.effect (hb : Behind s) (hi : Inv s) (he : Effect s t) : Behind t := by
  cases he with
  | send e l => simpa [Behind, SendPc.betweenBehind, localsFrom] using hb
  | @sendPanicked i l m hs =>
      have hw := weight_set (w := SendPc.betweenBehind) .panicked hs
      have hold := hb
      simp only [SendPc.betweenBehind] at hw
      unfold Behind at hold ⊢
      change weight _ s.receivers + weight _ (s.senders.set i .panicked) ≤ s.localsFrom 1
      omega
  | @push i l m one q hs hl hq =>
      have hw := weight_set (w := SendPc.betweenBehind) (.signalLocal m l) hs
      have hloc := localsFrom_set (s := s) { one with queue := q } 1 hl s.globalSemaphore
        (s.senders.set i (.signalLocal m l)) s.receivers
      have hold := hb
      simp only [SendPc.betweenBehind] at hw
      unfold Behind at hold ⊢
      dsimp only at hloc ⊢
      omega
  | @signalLocal i l m one hs hl =>
      have hw := weight_set (w := SendPc.betweenBehind) (.signalGlobal m l) hs
      have hloc := localsFrom_set (s := s) { one with localSemaphore := one.localSemaphore + 1 } 1
        hl s.globalSemaphore (s.senders.set i (.signalGlobal m l)) s.receivers
      have hold := hb
      unfold Behind at hold ⊢
      cases l <;> simp [SendPc.betweenBehind] at hw hloc ⊢ <;> omega
  | @signalGlobal i l m hs =>
      have hw := weight_set (w := SendPc.betweenBehind) (.returned m l) hs
      have hold := hb
      simp only [SendPc.betweenBehind] at hw
      unfold Behind at hold ⊢
      change weight _ s.receivers + weight _ (s.senders.set i (.returned m l)) ≤ s.localsFrom 1
      omega
  | recv hpc => rcases hpc with rfl | rfl <;> simpa [Behind, RecvPc.passedZero, localsFrom] using hb
  | takeGlobal hr hpc hn =>
      refine hb.receiver hr ?_
      rcases hpc with ⟨rfl, rfl⟩ | ⟨l, rfl, rfl⟩ <;> exact le_rfl
  | nothing hr => exact hb.receiver hr le_rfl
  | @takeLocal i l n pc one hr hpc hl hn =>
      have hw := weight_set (w := RecvPc.passedZero) (.pop l) hr
      have hloc := localsFrom_set (s := s) { one with localSemaphore := n } 1 hl
        s.globalSemaphore s.senders (s.receivers.set i (.pop l))
      have hold := hb
      have hsound := hi.sound _ (List.mem_of_getElem? hr)
      unfold Behind at hold ⊢
      rcases hpc with rfl | rfl
      · obtain rfl : l = 0 := hsound
        simp [RecvPc.passedZero] at hw hloc ⊢
        omega
      · cases l <;> simp [RecvPc.passedZero] at hw hloc ⊢ <;> omega
  | @missLocal i l pc pc' one hr hpc hl hn =>
      have hsound := hi.sound _ (List.mem_of_getElem? hr)
      rcases hpc with ⟨rfl, rfl⟩ | ⟨rfl, rfl⟩
      · obtain rfl : l = 0 := hsound
        exact hi.miss hr rfl le_rfl (by simp [unclaimed, hl, hn])
      · cases l with
        | zero => exact hi.miss hr rfl le_rfl (by simp [unclaimed, hl, hn])
        | succ l => exact hb.receiver hr le_rfl
  | fallThrough hr hpc hl =>
      refine hb.receiver hr ?_
      rcases hpc with ⟨rfl, rfl⟩ | ⟨rfl, rfl⟩ <;> exact Nat.zero_le _
  | restore hr => exact hb.receiver hr (Nat.zero_le _)
  | @pop i l m one q hr hl hq =>
      have hw := weight_set (w := RecvPc.passedZero) (.holding m l) hr
      have hloc := localsFrom_set (s := s) { one with queue := q } 1 hl
        s.globalSemaphore s.senders (s.receivers.set i (.holding m l))
      have hold := hb
      simp only [RecvPc.passedZero] at hw
      unfold Behind at hold ⊢
      dsimp only at hloc ⊢
      omega
  | popEmpty hr hl hq => exact hb.receiver hr le_rfl
  | recvReturned hr => exact hb.receiver hr le_rfl

theorem behind_of_run {h : List (ChannelLabel α)}
    (hr : (system α bounded levels).Run OnlyLevelZero h s) : Behind s := by
  refine hr.induct (P := fun _ s => Behind s) (Nat.zero_le _) ?_
  intro h s a t hs hb hok hst
  exact hb.effect (inv_of_run hs) (effect_of_step hok hst)

/-- Whatever happens before, the next step of the `i`th receiver is `decrement_immediate` on the
local semaphore of level 0. -/
def WillExamineZero (levels : ℕ) (s : Channel α bounded) (i : ℕ) : Prop :=
  ∃ onEmpty, ∀ h t, (system α bounded levels).Path OnlyLevelZero s h t → .recvStep i ∉ h →
    ∃ one, t.shared[0]? = some one ∧ t.step (.recvStep i) = some (t.recvNonblock i 0 one onEmpty)

theorem receivers_of_sendStep {i : ℕ} {pc : SendPc α} (h : s.sendStep i pc = some t) :
    t.receivers = s.receivers := by
  cases pc with
  | push m l =>
      simp only [sendStep] at h
      split at h
      · cases h
        rfl
      · split at h <;> cases h <;> rfl
  | signalLocal m l =>
      simp only [sendStep] at h
      split at h <;> cases h
      rfl
  | signalGlobal m l =>
      cases h
      rfl
  | returned m l => cases h
  | panicked => cases h

theorem receivers_of_recvStep {i : ℕ} {pc : RecvPc α} (h : s.recvStep i pc = some t) :
    ∃ pc', t.receivers = s.receivers.set i pc' := by
  cases pc with
  | immediate | all =>
      simp only [recvStep] at h
      split at h <;> cases h <;> exact ⟨_, rfl⟩
  | immediateLocal | scan =>
      simp only [recvStep, recvNonblock] at h
      split at h
      · cases h
        exact ⟨_, rfl⟩
      · split at h <;> cases h <;> exact ⟨_, rfl⟩
  | pop l =>
      simp only [recvStep] at h
      split at h
      · cases h
      · split at h <;> cases h <;> exact ⟨_, rfl⟩
  | restore | holding =>
      cases h
      exact ⟨_, rfl⟩
  | returned | noElementFound | unwrapNone | indexOutOfBounds => cases h

/-- Only its own steps move a receiver. -/
theorem receiver_of_path {h : List (ChannelLabel α)} {i : ℕ} {pc : RecvPc α}
    (hp : (system α bounded levels).Path OnlyLevelZero s h t) (hr : s.receivers[i]? = some pc)
    (hi : .recvStep i ∉ h) : t.receivers[i]? = some pc := by
  refine hp.induct (P := fun h t => .recvStep i ∉ h → t.receivers[i]? = some pc) (fun _ => hr) ?_ hi
  intro h t a u _ ih _ hst hmem
  rw [List.mem_cons, not_or] at hmem
  obtain ⟨hne, hmem⟩ := hmem
  have ht := ih hmem
  have hlt := (List.getElem?_eq_some_iff.mp ht).1
  change t.step a = some u at hst
  cases a with
  | send e l =>
      cases hst
      exact ht
  | sendStep j =>
      obtain ⟨pc', -, hst⟩ := Option.bind_eq_some_iff.mp hst
      rw [receivers_of_sendStep hst]
      exact ht
  | recvImmediate l | recvAll =>
      cases hst
      exact (List.getElem?_append_left hlt).trans ht
  | recvStep j =>
      obtain ⟨pc', -, hst⟩ := Option.bind_eq_some_iff.mp hst
      obtain ⟨pc'', hset⟩ := receivers_of_recvStep hst
      have hji : j ≠ i := by
        rintro rfl
        exact hne rfl
      rw [hset, List.getElem?_set_ne hji]
      exact ht

theorem willExamineZero_of_seeksZero {h : List (ChannelLabel α)}
    (hr : (system α bounded levels).Run OnlyLevelZero h s) {i : ℕ} {pc : RecvPc α}
    (hi : s.receivers[i]? = some pc) (hpc : 0 < pc.seeksZero) : s.WillExamineZero levels i := by
  have hstays : ∀ h' t, (system α bounded levels).Path OnlyLevelZero s h' t →
      .recvStep i ∉ h' → pc.holdsPermit = 1 →
        ∃ one, t.shared[0]? = some one ∧ t.receivers[i]? = some pc := by
    intro h' t hp hmem hholds
    have ht := receiver_of_path hp hi hmem
    obtain ⟨one, hone⟩ := Option.ne_none_iff_exists'.mp
      ((inv_of_run (hr.trans hp)).exists_level_zero ht hholds)
    exact ⟨one, hone, ht⟩
  cases pc with
  | immediateLocal l =>
      cases l with
      | succ l => exact absurd hpc (Nat.lt_irrefl 0)
      | zero =>
          refine ⟨.restore, fun h' t hp hmem => ?_⟩
          obtain ⟨one, hone, ht⟩ := hstays h' t hp hmem rfl
          exact ⟨one, hone, by simp [step, ht, recvStep, hone]⟩
  | scan l =>
      cases l with
      | succ l => exact absurd hpc (Nat.lt_irrefl 0)
      | zero =>
          refine ⟨.scan 1, fun h' t hp hmem => ?_⟩
          obtain ⟨one, hone, ht⟩ := hstays h' t hp hmem rfl
          exact ⟨one, hone, by simp [step, ht, recvStep, hone]⟩
  | _ => exact absurd hpc (Nat.lt_irrefl 0)

/-- Borrowed permits do not hide a message of level 0. The last clause is about a `recv_immediate`
that finds the global semaphore at 0 while no sender of level 0 is between its two signals. -/
structure NotHidden (levels : ℕ) (s : Channel α bounded) : Prop where
  unclaimed_le : s.unclaimed 0 ≤ s.globalSemaphore + weight RecvPc.seeksZero s.receivers +
    weight (SendPc.betweenSignalsAt 0) s.senders
  matched : ∀ i : ℕ, s.receivers[i]? = some (RecvPc.immediate 0) → s.globalSemaphore = 0 →
    (∀ m, SendPc.signalGlobal m 0 ∉ s.senders) →
      ∃ f : Fin (s.unclaimed 0) → ℕ, Function.Injective f ∧ ∀ k, s.WillExamineZero levels (f k)

theorem seeksZero_le (pc : RecvPc α) : pc.seeksZero ≤ 1 := by
  unfold RecvPc.seeksZero
  split <;> omega

theorem notHidden_of_run {h : List (ChannelLabel α)}
    (hr : (system α bounded levels).Run OnlyLevelZero h s) : s.NotHidden levels := by
  have hpermits := (inv_of_run hr).permits
  have hholds := (inv_of_run hr).weight_holdsPermit
  have hbetween := weight_betweenSignals s.senders
  have hlocals : s.localsFrom 0 = s.unclaimed 0 + s.localsFrom 1 := s.localsFrom_eq 0
  have hbehind : weight RecvPc.passedZero s.receivers + weight SendPc.betweenBehind s.senders ≤
      s.localsFrom 1 := behind_of_run hr
  have hle : s.unclaimed 0 ≤ s.globalSemaphore + weight RecvPc.seeksZero s.receivers +
      weight (SendPc.betweenSignalsAt 0) s.senders := by omega
  refine ⟨hle, fun i _ hglobal hsenders => ?_⟩
  have hnone : weight (SendPc.betweenSignalsAt 0) s.senders = 0 := by
    rw [weight_eq_zero]
    intro pc hpc
    cases pc with
    | signalGlobal m l =>
        refine if_neg ?_
        rintro rfl
        exact hsenders m hpc
    | _ => rfl
  obtain ⟨f, hf, hl⟩ := exists_injective_of_le_weight (n := s.unclaimed 0)
    (w := RecvPc.seeksZero) (l := s.receivers) seeksZero_le (by omega)
  refine ⟨f, hf, fun k => ?_⟩
  obtain ⟨pc, hpc, hpos⟩ := hl k
  exact willExamineZero_of_seeksZero hr hpc hpos

/-- Two receivers that have still to look at level 0 hold the permits of a message of each level,
while a third call is about to find none. -/
def permitsBorrowed : List (ChannelLabel ℕ) :=
  [.send 7 1, .sendStep 0, .sendStep 0, .sendStep 0, .recvImmediate 0, .recvStep 0, .recvStep 0,
    .recvStep 0, .recvAll, .recvStep 1, .send 8 0, .sendStep 1, .sendStep 1, .sendStep 1,
    .recvImmediate 0, .recvStep 2, .recvImmediate 0]

theorem notHidden_permitsBorrowed :
    NotHidden 2 (⟨[⟨⟨[⟨1, 8⟩], by decide⟩, 1⟩, ⟨⟨[⟨0, 7⟩], by decide⟩, 1⟩], 0,
      [.returned ⟨0, 7⟩ 1, .returned ⟨1, 8⟩ 0],
      [.returned none, .scan 0, .immediateLocal 0, .immediate 0]⟩ : Channel ℕ 4) :=
  notHidden_of_run (show (system ℕ 4 2).Run OnlyLevelZero _ _ from
    Lts.path_of_exec permitsBorrowed (by decide))

end Channel
end Kiruna.Tpc
