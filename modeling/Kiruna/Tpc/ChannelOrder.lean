import Kiruna.Tpc.ChannelDelivery

/-!
# The order of the messages of a level

The semaphores let a receiver that came late claim a message before a receiver that came early, and
two senders may signal in the other order than they have pushed. The messages of one level are
taken in the order of their pushes all the same: no message overtakes another.
-/

namespace Kiruna.Tpc

variable {α : Type*}

namespace LevelQueues

variable {q r : LevelQueues α} {m m' : Message α} {l : ℕ}

/-- A receive call has taken the message. -/
def Taken (q : LevelQueues α) (m : Message α) (l : ℕ) : Prop := ∃ j, q.At m l (.received j)

/-- `m` was taken, or it waits on the level with nothing of `m'` in front of it. -/
def Ahead (q : LevelQueues α) (m m' : Message α) (l : ℕ) : Prop :=
  q.Taken m l ∨ ¬ q.Taken m' l ∧
    ∃ front back, q.queues[l]? = some (front ++ m :: back) ∧ m' ∉ front

/-- A message that was sent is ahead of one that was not. -/
theorem Ledger.ahead (hq : Ledger q) (hm : q.SentAt m l) (hm' : ¬ q.SentAt m' l) :
    q.Ahead m m' l := by
  obtain ⟨p, hp⟩ := hq.exists_place hm
  cases p with
  | received j => exact .inl ⟨j, hp⟩
  | queued k =>
      obtain ⟨items, hl, hk⟩ := hp
      obtain ⟨hlt, rfl⟩ := List.getElem?_eq_some_iff.mp hk
      refine .inr ⟨?_, items.take k, items.drop (k + 1), ?_, ?_⟩
      · rintro ⟨j, hj⟩
        exact hm' (hq.source m' l (.received j) hj)
      · rw [List.cons_getElem_drop_succ, List.take_append_drop, hl]
      · intro hfront
        obtain ⟨k', hk'⟩ := List.mem_iff_getElem?.mp (List.mem_of_mem_take hfront)
        exact hm' (hq.source m' l (.queued k') ⟨items, hl, hk'⟩)

theorem Step.taken (hs : Step q r) (hm : q.Taken m l) : r.Taken m l := by
  obtain ⟨j, hj⟩ := hm
  have hlt := (List.getElem?_eq_some_iff.mp hj).1
  cases hs with
  | stutter | send | push => exact ⟨j, hj⟩
  | recv => exact ⟨j, (List.getElem?_append_left hlt).trans hj⟩
  | @pop j' l' m₁ items hj' hl' =>
      refine ⟨j, (List.getElem?_set_ne ?_).trans hj⟩
      rintro rfl
      rw [At, hj'] at hj
      cases hj

/-- Only a pop of the level takes a message. -/
theorem not_taken_of_pop {j l' : ℕ} {m₁ : Message α} (hm' : ¬ q.Taken m' l)
    (hne : ¬ (m₁ = m' ∧ l' = l)) (queues : List (List (Message α))) :
    ¬ (⟨queues, q.sent, q.received.set j (some (m₁, l'))⟩ : LevelQueues α).Taken m' l := by
  rintro ⟨j', hj'⟩
  rcases getElem?_set_cases hj' with ⟨-, heq⟩ | ⟨-, hj'⟩
  · cases heq
    exact hne ⟨rfl, rfl⟩
  · exact hm' ⟨j', hj'⟩

theorem Step.ahead (hs : Step q r) (hq : q.Ahead m m' l) : r.Ahead m m' l := by
  obtain htaken | ⟨hm', front, back, hl, hfront⟩ := hq
  · exact .inl (hs.taken htaken)
  cases hs with
  | stutter => exact .inr ⟨hm', front, back, hl, hfront⟩
  | send => exact .inr ⟨hm', front, back, hl, hfront⟩
  | recv =>
      refine .inr ⟨?_, front, back, hl, hfront⟩
      rintro ⟨j, hj⟩
      rcases getElem?_append_cases hj with hj | ⟨-, heq⟩
      · exact hm' ⟨j, hj⟩
      · cases heq
  | @push m₁ l' items hsent hl' =>
      by_cases heq : l' = l
      · subst heq
        obtain rfl := Option.some.inj (hl'.symm.trans hl)
        refine .inr ⟨hm', front, back ++ [m₁], ?_, hfront⟩
        rw [List.getElem?_set_self (List.getElem?_eq_some_iff.mp hl').1, List.append_assoc,
          List.cons_append]
      · exact .inr ⟨hm', front, back, (List.getElem?_set_ne heq).trans hl, hfront⟩
  | @pop j l' m₁ items hj hl' =>
      by_cases heq : l' = l
      · subst heq
        have hset : (q.queues.set l' items)[l']? = some items :=
          List.getElem?_set_self (List.getElem?_eq_some_iff.mp hl').1
        have hitems := Option.some.inj (hl'.symm.trans hl)
        cases front with
        | nil =>
            -- the message itself is at the front
            cases hitems
            exact .inl ⟨j, List.getElem?_set_self (List.getElem?_eq_some_iff.mp hj).1⟩
        | cons m₂ front =>
            cases hitems
            rw [List.mem_cons, not_or] at hfront
            obtain ⟨hne, hfront⟩ := hfront
            exact .inr ⟨not_taken_of_pop hm' (fun h => hne h.1.symm) _, front, back, hset, hfront⟩
      · refine .inr ⟨not_taken_of_pop hm' (fun h => heq h.2) _, front, back, ?_, hfront⟩
        exact (List.getElem?_set_ne heq).trans hl

end LevelQueues

namespace Channel

variable {bounded levels : ℕ} {s t : Channel α bounded} {h h' : List (ChannelLabel α)}
  {m m' : Message α} {l : ℕ}

/-- A receive call has popped the message. -/
def Taken (s : Channel α bounded) (m : Message α) (l : ℕ) : Prop :=
  ∃ j, s.At m l (.held j) ∨ s.At m l (.returned j)

theorem taken_iff : s.Taken m l ↔ s.levelQueues.Taken m l := by
  constructor
  · rintro ⟨j, hj | hj⟩ <;> exact ⟨j, hj.abstract⟩
  · rintro ⟨j, hj⟩
    obtain ⟨p, hp, hat⟩ := exists_at hj
    cases p with
    | queued k => cases hp
    | held j' => exact ⟨j', .inl hat⟩
    | returned j' => exact ⟨j', .inr hat⟩

/-- A message that is pushed when another was pushed before it on the same level is taken after it,
however the calls interleave. -/
theorem taken_of_overtaken (hr : (system α bounded levels).Run OnlyLevelZero h s)
    (hm : s.SentAt m l) (hm' : ¬ s.SentAt m' l)
    (hp : (system α bounded levels).Path OnlyLevelZero s h' t) (htaken : t.Taken m' l) :
    t.Taken m l := by
  have hahead : t.levelQueues.Ahead m m' l := by
    have hall := hp.induct (P := fun h' t =>
      (system α bounded levels).Run OnlyLevelZero (h' ++ h) t ∧ t.levelQueues.Ahead m m' l)
      ⟨hr, ?_⟩ ?_
    · exact hall.2
    · exact (ledger_of_run hr).ahead (sentAt_iff.mp hm) fun hsent => hm' (sentAt_iff.mpr hsent)
    · intro h' t a u _ ⟨ht, hahead⟩ hok hst
      refine ⟨ht.snoc hok hst, ?_⟩
      exact ((effect_of_step hok hst).levelQueues (numbered_of_run ht)).ahead hahead
  rcases hahead with hm | ⟨hnot, -⟩
  · exact taken_iff.mpr hm
  · exact absurd (taken_iff.mp htaken) hnot

/-- A push on level 0. -/
def firstPush : List (ChannelLabel ℕ) := [.recvAll, .recvAll, .send 7 0, .sendStep 0]

/-- A later push on level 0 that is signalled first, and two receivers. The one that claims its
message last pops first. -/
def secondSignalled : List (ChannelLabel ℕ) :=
  [.send 8 0, .sendStep 1, .sendStep 1, .sendStep 1, .recvStep 0, .recvStep 0, .sendStep 0,
    .sendStep 0, .recvStep 1, .recvStep 1, .recvStep 1, .recvStep 0]

/-- After `firstPush`. -/
def onePushed : Channel ℕ 4 :=
  ⟨[⟨⟨[⟨0, 7⟩], by decide⟩, 0⟩, ⟨.empty, 0⟩], 0, [.signalLocal ⟨0, 7⟩ 0], [.all, .all]⟩

/-- After `firstPush` and `secondSignalled`. -/
def bothTaken : Channel ℕ 4 :=
  ⟨[⟨.empty, 0⟩, ⟨.empty, 0⟩], 0, [.returned ⟨0, 7⟩ 0, .returned ⟨1, 8⟩ 0],
    [.holding ⟨1, 8⟩ 0, .holding ⟨0, 7⟩ 0]⟩

theorem taken_secondSignalled : bothTaken.Taken ⟨0, 7⟩ 0 :=
  taken_of_overtaken
    (Lts.path_of_exec firstPush (by decide) : (system ℕ 4 2).Run OnlyLevelZero _ onePushed)
    rfl (by simp [SentAt, onePushed]) (Lts.path_of_exec secondSignalled (by decide))
    (⟨0, .inl rfl⟩ : bothTaken.Taken ⟨1, 8⟩ 0)

end Channel
end Kiruna.Tpc
