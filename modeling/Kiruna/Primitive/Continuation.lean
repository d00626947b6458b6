import Kiruna.Transition.Lts

/-!
# Continuations

A continuation carries one value from its sender to its receiver, which is a future. Its code is not
part of the sources but a parameter here. A call of `send` makes its steps one by one, between which
the future may be polled; a poll is indivisible. `Documented` lists what can be relied on in every
interleaving of the one call of `send` with the polls of the one future.
-/

namespace Kiruna

/-- The code of a continuation that carries a `V`: `σ` is what the sender and the receiver share,
and `τ` is where a call of `send` stands. A step of the call may wake a waker, and the call has
returned when there is none; `left` bounds the steps to come and `sendSteps` those of a whole
call. -/
structure Continuation (V σ τ : Type*) where
  new : σ
  start : V → τ
  send : σ → τ → Option (σ × τ × Option ℕ)
  poll : σ → ℕ → σ × Option V
  left : τ → ℕ
  sendSteps : ℕ

namespace Continuation

/-- The sender is consumed by its call of `send`. -/
inductive Sender (V τ : Type*)
  | unsent
  | sending (v : V) (p : τ)
  | sent (v : V)
  deriving DecidableEq

/-- How the last poll of the receiver ended; after a ready one there is no other. -/
inductive Receiver
  | unpolled
  | pending (w : ℕ)
  | ready
  deriving DecidableEq

/-- The two ends of a continuation, with the wakers that were woken. -/
structure Pair (V σ τ : Type*) where
  shared : σ
  sender : Sender V τ
  receiver : Receiver
  woken : List ℕ
  deriving DecidableEq

inductive PairLabel (V : Type*)
  | send (v : V)
  | sendStep
  | poll (w : ℕ)

variable {V σ τ : Type*}

/-- The value that `send` was called with. -/
def Pair.value (c : Pair V σ τ) : Option V :=
  match c.sender with
  | .unsent => none
  | .sending v _ | .sent v => some v

variable (C : Continuation V σ τ)

/-- `continuation()`. -/
def pair : Pair V σ τ := ⟨C.new, .unsent, .unpolled, []⟩

/-- `Sender::send` is called. -/
def call (c : Pair V σ τ) (v : V) : Option (Pair V σ τ) :=
  match c.sender with
  | .unsent => some { c with sender := .sending v (C.start v) }
  | _ => none

/-- The next step of the call, or its return. -/
def sendStep (c : Pair V σ τ) : Option (Pair V σ τ) :=
  match c.sender with
  | .sending v p =>
      match C.send c.shared p with
      | some (shared, p', woken) => some { c with
          shared := shared, sender := .sending v p', woken := c.woken ++ woken.toList }
      | none => some { c with sender := .sent v }
  | _ => none

/-- A poll of the receiver. -/
def await (c : Pair V σ τ) (w : ℕ) : Option (Pair V σ τ × Option V) :=
  if c.receiver = .ready then none
  else match C.poll c.shared w with
    | (shared, some v) => some ({ c with shared := shared, receiver := .ready }, some v)
    | (shared, none) => some ({ c with shared := shared, receiver := .pending w }, none)

def step (c : Pair V σ τ) : PairLabel V → Option (Pair V σ τ)
  | .send v => C.call c v
  | .sendStep => C.sendStep c
  | .poll w => (C.await c w).map Prod.fst

def system : Lts (Pair V σ τ) (PairLabel V) where
  init := C.pair
  step := C.step

/-- The documented behaviour: a call of `send` comes to its end; a poll is ready with the value that
was sent; when `send` has returned the last pending poll has been woken; and a poll that comes after
a wake is ready. -/
structure Documented : Prop where
  left_start : ∀ v, C.left (C.start v) ≤ C.sendSteps
  left_lt : ∀ shared p r, C.send shared p = some r → C.left r.2.1 < C.left p
  value : ∀ c, C.system.Reachable c → ∀ w c' v, C.await c w = some (c', some v) → c.value = some v
  wakes : ∀ c, C.system.Reachable c → ∀ v w, c.sender = .sent v → c.receiver = .pending w →
    w ∈ c.woken
  prompt : ∀ c, C.system.Reachable c → c.woken ≠ [] → ∀ w c', C.await c w ≠ some (c', none)

variable {C} {c c' : Pair V σ τ} {v : V} {w : ℕ} {r : Option V}

theorem reachable_pair : C.system.Reachable C.pair := ⟨[], .refl⟩

theorem reachable_step (hc : C.system.Reachable c) {a : PairLabel V} (hst : C.step c a = some c') :
    C.system.Reachable c' := by
  obtain ⟨h, hr⟩ := hc
  exact ⟨a :: h, hr.snoc trivial hst⟩

theorem call_eq_some (h : C.call c v = some c') :
    c.sender = .unsent ∧ c' = { c with sender := .sending v (C.start v) } := by
  unfold call at h
  split at h
  · rename_i hsender
    exact ⟨hsender, (Option.some.inj h).symm⟩
  · cases h

theorem await_eq_some (h : C.await c w = some (c', r)) :
    c.receiver ≠ .ready ∧ c'.sender = c.sender ∧ c'.woken = c.woken ∧
      c'.receiver = r.elim (.pending w) fun _ => .ready := by
  unfold await at h
  split_ifs at h with hready
  split at h
  · cases h
    exact ⟨hready, rfl, rfl, rfl⟩
  · cases h
    exact ⟨hready, rfl, rfl, rfl⟩

theorem exists_await (w : ℕ) (h : c.receiver ≠ .ready) : ∃ r, C.await c w = some r := by
  rw [await, if_neg h]
  split
  · exact ⟨_, rfl⟩
  · exact ⟨_, rfl⟩

/-- What a step of a call of `send` can do. -/
theorem sendStep_eq_some (h : C.sendStep c = some c') :
    c'.receiver = c.receiver ∧ c'.value = c.value ∧ c.woken <+: c'.woken := by
  unfold sendStep at h
  split at h
  · rename_i v p hsender
    split at h
    · cases h
      simp [Pair.value, hsender]
    · cases h
      simp [Pair.value, hsender]
  · cases h

theorem value_eq_none : c.value = none ↔ c.sender = .unsent := by
  unfold Pair.value
  split <;> simp_all

section StoreThenWake

/-- What the ends of `storeThenWake` share: the value, and the waker of the last poll. -/
structure Slot (V : Type*) where
  value : Option V
  waker : Option ℕ
  deriving DecidableEq

/-- Where a call of `send` of `storeThenWake` stands. -/
inductive StorePc (V : Type*)
  | store (v : V)
  | wake
  | stored
  deriving DecidableEq

/-- A continuation that stores the value and then wakes. -/
def storeThenWake (V : Type*) : Continuation V (Slot V) (StorePc V) where
  new := ⟨none, none⟩
  start := .store
  send s
    | .store v => some ({ s with value := some v }, .wake, none)
    | .wake => some ({ s with waker := none }, .stored, s.waker)
    | .stored => none
  poll s w :=
    match s.value with
    | some v => (s, some v)
    | none => ({ s with waker := some w }, none)
  left
    | .store _ => 2
    | .wake => 1
    | .stored => 0
  sendSteps := 2

/-- Before the value is stored, between that and the wake, and after the wake. -/
inductive StoreInv : Pair V (Slot V) (StorePc V) → Prop
  | unstored {sender : Sender V (StorePc V)} {receiver : Receiver} {waker : Option ℕ}
      (hsender : sender = .unsent ∨ ∃ v, sender = .sending v (.store v))
      (hwaker : ∀ w, receiver = .pending w → waker = some w) :
      StoreInv ⟨⟨none, waker⟩, sender, receiver, []⟩
  | stored {v : V} {receiver : Receiver} {waker : Option ℕ}
      (hwaker : ∀ w, receiver = .pending w → waker = some w) :
      StoreInv ⟨⟨some v, waker⟩, .sending v .wake, receiver, []⟩
  | woken {v : V} {sender : Sender V (StorePc V)} {receiver : Receiver} {waker : Option ℕ}
      {woken : List ℕ} (hsender : sender = .sending v .stored ∨ sender = .sent v)
      (hwoken : ∀ w, receiver = .pending w → w ∈ woken) :
      StoreInv ⟨⟨some v, waker⟩, sender, receiver, woken⟩

variable {s t : Pair V (Slot V) (StorePc V)}

theorem StoreInv.call (hs : StoreInv s) (h : (storeThenWake V).call s v = some t) :
    StoreInv t := by
  obtain ⟨hunsent, rfl⟩ := call_eq_some h
  cases hs with
  | unstored hsender hwaker => exact .unstored (.inr ⟨v, rfl⟩) hwaker
  | stored => cases hunsent
  | woken hsender => rcases hsender with rfl | rfl <;> cases hunsent

theorem StoreInv.sendStep (hs : StoreInv s) (h : (storeThenWake V).sendStep s = some t) :
    StoreInv t := by
  cases hs with
  | unstored hsender hwaker =>
      rcases hsender with rfl | ⟨v, rfl⟩ <;> cases h
      exact .stored hwaker
  | stored hwaker =>
      cases h
      exact .woken (.inl rfl) fun w hw => by simp [hwaker w hw]
  | woken hsender hwoken =>
      rcases hsender with rfl | rfl <;> cases h
      exact .woken (.inr rfl) hwoken

/-- A poll is ready as soon as the value has been stored. -/
theorem StoreInv.await (hs : StoreInv s) (h : (storeThenWake V).await s w = some (t, r)) :
    StoreInv t ∧ (r = none → s.woken = []) ∧ ∀ v, r = some v → s.value = some v := by
  unfold Continuation.await at h
  split_ifs at h
  cases hs with
  | unstored hsender =>
      cases h
      exact ⟨.unstored hsender fun _ hpending => congrArg some (Receiver.pending.inj hpending),
        fun _ => rfl, nofun⟩
  | stored =>
      cases h
      exact ⟨.stored nofun, nofun, fun v hv => hv⟩
  | woken hsender hwoken =>
      cases h
      refine ⟨.woken hsender nofun, nofun, fun v hv => ?_⟩
      rcases hsender with rfl | rfl <;> exact hv

theorem storeInv_of_reachable (hr : (storeThenWake V).system.Reachable s) : StoreInv s := by
  obtain ⟨h, hr⟩ := hr
  refine hr.invariant (fun s a t hs _ hst => ?_) (.unstored (.inl rfl) nofun)
  cases a with
  | send v => exact hs.call hst
  | sendStep => exact hs.sendStep hst
  | poll w =>
      obtain ⟨r, hr, rfl⟩ := Option.map_eq_some_iff.mp hst
      exact (hs.await hr).1

theorem documented_storeThenWake (V : Type*) : (storeThenWake V).Documented where
  left_start _ := Nat.le_refl _
  left_lt := by
    intro s p r h
    cases p with
    | store | wake =>
        cases h
        exact Nat.lt_succ_self _
    | stored => cases h
  value := fun c hc w c' v h => ((storeInv_of_reachable hc).await h).2.2 v rfl
  wakes := by
    intro c hc v w hsent hpending
    cases storeInv_of_reachable hc with
    | unstored hsender => rcases hsender with rfl | ⟨v, rfl⟩ <;> cases hsent
    | stored => cases hsent
    | woken _ hwoken => exact hwoken w hpending
  prompt := fun c hc hwoken w c' h => hwoken (((storeInv_of_reachable hc).await h).2.1 rfl)

end StoreThenWake

end Continuation
end Kiruna
