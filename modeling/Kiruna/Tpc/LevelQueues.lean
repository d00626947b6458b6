import Kiruna.Transition.Population
import Mathlib.Logic.ExistsUnique

/-!
# Queues by level

What a channel of several levels is for: a message that a send call puts on a level waits there in
order until exactly one receive call takes it. Semaphores do not occur; a refinement has to
explain why a receiver that takes a message finds one.
-/

namespace Kiruna.Tpc

/-- A message carries the number of the send call that brought it, which no channel looks at. -/
structure Message (α : Type*) where
  call : ℕ
  element : α
  deriving DecidableEq

/-- The queues, and for every send and receive call the message it has put or taken so far. -/
structure LevelQueues (α : Type*) where
  queues : List (List (Message α))
  sent : List (Option (Message α × ℕ))
  received : List (Option (Message α × ℕ))

namespace LevelQueues

variable {α : Type*}

def new (α : Type*) (levels : ℕ) : LevelQueues α := ⟨List.replicate levels [], [], []⟩

inductive Step (q : LevelQueues α) : LevelQueues α → Prop
  | stutter : Step q q
  | send : Step q { q with sent := q.sent ++ [none] }
  | recv : Step q { q with received := q.received ++ [none] }
  | push {m : Message α} {l : ℕ} {items : List (Message α)} (hs : q.sent[m.call]? = some none)
      (hl : q.queues[l]? = some items) :
      Step q { q with
        queues := q.queues.set l (items ++ [m])
        sent := q.sent.set m.call (some (m, l)) }
  | pop {j l : ℕ} {m : Message α} {items : List (Message α)} (hj : q.received[j]? = some none)
      (hl : q.queues[l]? = some (m :: items)) :
      Step q { q with
        queues := q.queues.set l items
        received := q.received.set j (some (m, l)) }

/-- Where a message can be: at a position of the queue of its level or with a receive call. -/
inductive Place
  | queued (k : ℕ)
  | received (j : ℕ)

def At (q : LevelQueues α) (m : Message α) (l : ℕ) : Place → Prop
  | .queued k => ∃ items, q.queues[l]? = some items ∧ items[k]? = some m
  | .received j => q.received[j]? = some (some (m, l))

def SentAt (q : LevelQueues α) (m : Message α) (l : ℕ) : Prop :=
  q.sent[m.call]? = some (some (m, l))

def isCall (i : ℕ) (m : Message α) : ℕ := if m.call = i then 1 else 0

def ofCall (i : ℕ) : Option (Message α × ℕ) → ℕ
  | some (m, _) => isCall i m
  | none => 0

def copies (q : LevelQueues α) (i : ℕ) : ℕ :=
  weight (weight (isCall i)) q.queues + weight (ofCall i) q.received

/-- Every message that was sent exists once, and nothing else does. -/
structure Ledger (q : LevelQueues α) : Prop where
  called : ∀ (i : ℕ) (m : Message α) (l : ℕ), q.sent[i]? = some (some (m, l)) → m.call = i
  copies : ∀ i : ℕ, q.copies i = ofCall i q.sent[i]?.join
  source : ∀ (m : Message α) (l : ℕ) (p : Place), q.At m l p → q.SentAt m l

variable {q r : LevelQueues α} {m : Message α} {l : ℕ}

theorem ledger_new (levels : ℕ) : Ledger (new α levels) where
  called := by simp [new]
  copies := by
    intro i
    have hz : weight (weight (isCall i)) (List.replicate levels ([] : List (Message α))) = 0 := by
      rw [weight_eq_zero]
      intro items hm
      obtain rfl := List.eq_of_mem_replicate hm
      rfl
    simp [LevelQueues.copies, new, hz, ofCall]
  source := by
    rintro m l (k | j) hp
    · obtain ⟨items, hl, hk⟩ := hp
      obtain rfl := List.eq_of_mem_replicate (List.mem_of_getElem? hl)
      simp at hk
    · simp [At, new] at hp

theorem isCall_self (m : Message α) : isCall m.call m = 1 := if_pos rfl

theorem Step.sentAt (hs : Step q r) (h : q.SentAt m l) : r.SentAt m l := by
  cases hs with
  | stutter | recv | pop => exact h
  | send =>
      exact (List.getElem?_append_left (List.getElem?_eq_some_iff.mp h).1).trans h
  | @push m' l' items hm' hl' =>
      have hne : m'.call ≠ m.call := by
        intro he
        rw [SentAt, ← he, hm'] at h
        cases h
      exact (List.getElem?_set_ne hne).trans h

/-- What is in a place after a step was sent before, or is sent by the step. -/
theorem Step.source (hs : Step q r) (hq : Ledger q) (p : Place) (hp : r.At m l p) :
    r.SentAt m l := by
  cases hs with
  | stutter => exact hq.source m l p hp
  | send => exact Step.send.sentAt (hq.source m l p (by cases p <;> exact hp))
  | recv =>
      cases p with
      | queued k => exact hq.source m l (.queued k) hp
      | received j =>
          rcases getElem?_append_cases hp with hp | ⟨-, he⟩
          · exact hq.source m l (.received j) hp
          · cases he
  | @push m' l' items hm' hl' =>
      have hstep : Step q _ := .push hm' hl'
      cases p with
      | queued k =>
          obtain ⟨items', hl, hk⟩ := hp
          rcases getElem?_set_cases hl with ⟨rfl, rfl⟩ | ⟨hne, hl⟩
          · rcases List.mem_append.mp (List.mem_of_getElem? hk) with hm | hm
            · obtain ⟨k', hk'⟩ := List.mem_iff_getElem?.mp hm
              exact hstep.sentAt (hq.source m l (.queued k') ⟨items, hl', hk'⟩)
            · obtain rfl := List.mem_singleton.mp hm
              exact List.getElem?_set_self (List.getElem?_eq_some_iff.mp hm').1
          · exact hstep.sentAt (hq.source m l (.queued k) ⟨items', hl, hk⟩)
      | received j => exact hstep.sentAt (hq.source m l (.received j) hp)
  | @pop j' l' m' items hj' hl' =>
      cases p with
      | queued k =>
          obtain ⟨items', hl, hk⟩ := hp
          rcases getElem?_set_cases hl with ⟨rfl, rfl⟩ | ⟨hne, hl⟩
          · exact hq.source m l (.queued (k + 1)) ⟨_, hl', by simpa using hk⟩
          · exact hq.source m l (.queued k) ⟨items', hl, hk⟩
      | received j =>
          rcases getElem?_set_cases hp with ⟨rfl, he⟩ | ⟨hne, hp⟩
          · cases he
            exact hq.source m l (.queued 0) ⟨_, hl', rfl⟩
          · exact hq.source m l (.received j) hp

theorem Step.copies (hs : Step q r) (hq : Ledger q) (i : ℕ) :
    r.copies i = ofCall i r.sent[i]?.join := by
  have hc := hq.copies i
  cases hs with
  | stutter => exact hc
  | send =>
      have hj : (q.sent ++ [none])[i]?.join = q.sent[i]?.join := by
        rcases Nat.lt_or_ge i q.sent.length with hi | hi
        · rw [List.getElem?_append_left hi]
        · rw [List.getElem?_append_right hi, List.getElem?_eq_none hi]
          cases i - q.sent.length <;> rfl
      exact hc.trans (congrArg (ofCall i) hj.symm)
  | recv => simpa [LevelQueues.copies, ofCall] using hc
  | @push m l items hm hl =>
      have hw := weight_set (w := weight (isCall i)) (items ++ [m]) hl
      simp only [weight_append, weight_cons, weight_nil] at hw
      simp only [LevelQueues.copies] at hc ⊢
      by_cases hi : m.call = i
      · subst hi
        have hlt := (List.getElem?_eq_some_iff.mp hm).1
        rw [hm] at hc
        simp only [List.getElem?_set_self hlt, Option.join_some, ofCall, isCall_self] at hc hw ⊢
        omega
      · rw [List.getElem?_set_ne hi]
        simp only [isCall, if_neg hi] at hw
        omega
  | @pop j l m items hj hl =>
      have hw := weight_set (w := weight (isCall i)) items hl
      have hr := weight_set (w := ofCall i) (some (m, l)) hj
      simp only [weight_cons, ofCall] at hw hr
      simp only [LevelQueues.copies] at hc ⊢
      omega

theorem Step.ledger (hs : Step q r) (hq : Ledger q) : Ledger r where
  called := by
    intro i m l hi
    cases hs with
    | stutter | recv | pop => exact hq.called i m l hi
    | send =>
        rcases getElem?_append_cases hi with hi | ⟨-, he⟩
        · exact hq.called i m l hi
        · cases he
    | push hm hl =>
        rcases getElem?_set_cases hi with ⟨rfl, he⟩ | ⟨hne, hi⟩
        · cases he
          rfl
        · exact hq.called i m l hi
  copies := hs.copies hq
  source := fun _ _ p hp => hs.source hq p hp

theorem Ledger.copies_of_sentAt (hq : Ledger q) (h : q.SentAt m l) : q.copies m.call = 1 := by
  rw [hq.copies, h]
  exact isCall_self m

/-- Only the message of the send call has its number. -/
theorem Ledger.eq_of_call (hq : Ledger q) (h : q.SentAt m l) {m' : Message α} {l' : ℕ} {p : Place}
    (hp : q.At m' l' p) (hc : 0 < isCall m.call m') : m' = m ∧ l' = l := by
  have hs := hq.source m' l' p hp
  have he : m'.call = m.call := by
    by_contra hn
    simp [isCall, hn] at hc
  rw [SentAt, he, h] at hs
  cases hs
  exact ⟨rfl, rfl⟩

theorem Ledger.exists_place (hq : Ledger q) (h : q.SentAt m l) : ∃ p, q.At m l p := by
  have hc := hq.copies_of_sentAt h
  rw [LevelQueues.copies] at hc
  rcases Nat.eq_zero_or_pos (weight (ofCall m.call) q.received) with hz | hpos
  · obtain ⟨l', items, hl, hitems⟩ :=
      exists_of_weight_pos (w := weight (isCall m.call)) (l := q.queues) (by omega)
    obtain ⟨k, m', hk, hm'⟩ := exists_of_weight_pos hitems
    have hp : q.At m' l' (.queued k) := ⟨items, hl, hk⟩
    obtain ⟨rfl, rfl⟩ := hq.eq_of_call h hp hm'
    exact ⟨_, hp⟩
  · obtain ⟨j, r, hj, hr⟩ := exists_of_weight_pos hpos
    cases r with
    | none => simp [ofCall] at hr
    | some ml =>
        obtain ⟨m', l'⟩ := ml
        have hp : q.At m' l' (.received j) := hj
        obtain ⟨rfl, rfl⟩ := hq.eq_of_call h hp hr
        exact ⟨_, hp⟩

/-- The weight that a place accounts for. -/
theorem Ledger.place_unique (hq : Ledger q) (h : q.SentAt m l) {p p' : Place}
    (hp : q.At m l p) (hp' : q.At m l p') : p = p' := by
  have hc := hq.copies_of_sentAt h
  rw [LevelQueues.copies] at hc
  have hqueued : ∀ {k : ℕ} {items : List (Message α)}, q.queues[l]? = some items →
      items[k]? = some m → 1 ≤ weight (isCall m.call) items ∧
        weight (isCall m.call) items ≤ weight (weight (isCall m.call)) q.queues := by
    intro k items hl hk
    have hle := le_weight (w := isCall m.call) hk
    rw [isCall_self] at hle
    exact ⟨hle, le_weight (w := weight (isCall m.call)) hl⟩
  have hreceived : ∀ {j : ℕ}, q.received[j]? = some (some (m, l)) →
      1 ≤ weight (ofCall m.call) q.received := by
    intro j hj
    have hle := le_weight (w := ofCall m.call) hj
    rwa [ofCall, isCall_self] at hle
  cases p with
  | queued k =>
      obtain ⟨items, hl, hk⟩ := hp
      have hone := hqueued hl hk
      cases p' with
      | queued k' =>
          obtain ⟨items', hl', hk'⟩ := hp'
          obtain rfl : items = items' := Option.some.inj (hl.symm.trans hl')
          exact congrArg Place.queued (eq_of_weight_le_one (w := isCall m.call) (by omega) hk hk'
            (by rw [isCall_self]; exact Nat.one_pos) (by rw [isCall_self]; exact Nat.one_pos))
      | received j' =>
          have hr := hreceived hp'
          omega
  | received j =>
      have hr := hreceived hp
      cases p' with
      | queued k' =>
          obtain ⟨items', hl', hk'⟩ := hp'
          have hone := hqueued hl' hk'
          omega
      | received j' =>
          exact congrArg Place.received (eq_of_weight_le_one (w := ofCall m.call) (by omega) hp hp'
            (by rw [ofCall, isCall_self]; exact Nat.one_pos)
            (by rw [ofCall, isCall_self]; exact Nat.one_pos))

theorem Ledger.existsUnique_place (hq : Ledger q) (h : q.SentAt m l) : ∃! p, q.At m l p := by
  obtain ⟨p, hp⟩ := hq.exists_place h
  exact ⟨p, hp, fun p' hp' => hq.place_unique h hp' hp⟩

end LevelQueues
end Kiruna.Tpc
