import Aevox.Bytes
import Aevox.Library.Machine
import Mathlib.Logic.Function.Basic
import Mathlib.Data.List.Nodup

/-!
# The topic bus

A topic has a list of weak pointers to its subscribers. A subscriber that expires stays in the
lists until somebody purges it: `unsubscribe` all of them, `publish` those of its topic, if it has
met one. Each section under the mutex is one step. `publish` takes a snapshot first, which keeps the
subscribers in it alive, then purges, then visits one subscriber of the snapshot after another.

The code tells subscribers apart by their addresses. The address of an object that has been freed
may be used again, so that a list may hold an expired pointer and a live one with the same address.
-/

namespace Aevox

namespace TopicBus

/-- An object, by its control block and its address. A weak pointer to it is the same. -/
structure Subscriber where
  id : ℕ
  address : ℕ
  deriving DecidableEq

/-- A call of `publish`, with the deliveries it has made. -/
structure Publish where
  message : Bytes
  sender : Option Subscriber
  hasDead : Bool
  topic : Bytes
  liveSubs : List Subscriber
  /-- What the loop over `liveSubs` has not visited. -/
  toVisit : List Subscriber
  deliveries : ℕ
  returned : Option ℕ
  delivered : List (Subscriber × Bytes)
  deriving DecidableEq

end TopicBus

/-- A bus, with the objects around it: those that are allocated, those that have an owner, and how
many have been created. A topic that is not in the map is one with an empty list. -/
structure TopicBus where
  topics : Bytes → List TopicBus.Subscriber
  objects : List TopicBus.Subscriber
  alive : List TopicBus.Subscriber
  created : ℕ
  publishes : List TopicBus.Publish

namespace TopicBus

/-- What can happen next. -/
inductive Event where
  /-- A subscriber is created at an address. -/
  | create (address : ℕ)
  /-- The last owner lets go of a subscriber. -/
  | expire (o : Subscriber)
  /-- Its destructor has run. -/
  | free (o : Subscriber)
  | subscribe (topic : Bytes) (o : Subscriber)
  | unsubscribe (o : Subscriber)
  /-- A call of `publish` takes its snapshot. -/
  | publish (topic message : Bytes) (sender : Option Subscriber)
  /-- A call of `publish` removes dead entries. -/
  | prune (k : ℕ)
  /-- A call of `publish` visits the next subscriber of its snapshot, or returns. -/
  | deliver (k : ℕ)

/-- A new bus. -/
def start : TopicBus where
  topics _ := []
  objects := []
  alive := []
  created := 0
  publishes := []

/-- `wp.expired()` -/
def expired (s : TopicBus) (wp : Subscriber) : Bool := wp ∉ s.alive

/-- The pointer can be locked, and leads to this object. -/
def isAt (s : TopicBus) (o wp : Subscriber) : Bool := !s.expired wp && wp.address = o.address

/-- `subscribe` -/
def subscribe (s : TopicBus) (topic : Bytes) (o : Subscriber) : TopicBus :=
  if (s.topics topic).any (s.isAt o) then s
  else { s with topics := Function.update s.topics topic (s.topics topic ++ [o]) }

/-- `unsubscribe` -/
def unsubscribe (s : TopicBus) (o : Subscriber) : TopicBus :=
  { s with topics := fun topic ↦
      (s.topics topic).filter fun wp ↦ !(s.expired wp || wp.address = o.address) }

/-- The snapshot of `publish`. -/
def snapshot (s : TopicBus) (topic message : Bytes) (sender : Option Subscriber) : Publish where
  message := message
  sender := sender
  hasDead := (s.topics topic).any s.expired
  topic := topic
  liveSubs := (s.topics topic).filter fun wp ↦ !s.expired wp
  toVisit := (s.topics topic).filter fun wp ↦ !s.expired wp
  deliveries := 0
  returned := none
  delivered := []

/-- The next turn of the loop that delivers. -/
def Publish.visit (p : Publish) : Publish :=
  match p.toVisit with
  | [] => { p with returned := some p.deliveries }
  | o :: rest =>
    if p.sender.any fun sender ↦ o.address = sender.address then { p with toVisit := rest }
    else { p with
      toVisit := rest
      deliveries := p.deliveries + 1
      delivered := p.delivered ++ [(o, p.message)] }

/-- The call is under way. -/
def Publish.isOpen (p : Publish) : Bool := p.returned.isNone

/-- What happens, if it can: an object cannot expire while a snapshot owns it, nor be freed while it
is the sender of a call. -/
def step (s : TopicBus) : Event → Option TopicBus
  | .create address =>
    if address ∈ s.objects.map Subscriber.address then none
    else
      let o : Subscriber := ⟨s.created, address⟩
      some { s with objects := o :: s.objects, alive := o :: s.alive, created := s.created + 1 }
  | .expire o =>
    if ∃ p ∈ s.publishes, p.isOpen ∧ o ∈ p.liveSubs then none
    else some { s with alive := s.alive.filter (· ≠ o) }
  | .free o =>
    if o ∈ s.alive ∨ ∃ p ∈ s.publishes, p.isOpen ∧ p.sender = some o then none
    else some { s with objects := s.objects.filter (· ≠ o) }
  | .subscribe topic o => if o ∈ s.alive then some (s.subscribe topic o) else none
  | .unsubscribe o => if o ∈ s.objects then some (s.unsubscribe o) else none
  | .publish topic message sender =>
    if ∀ o ∈ sender, o ∈ s.objects then
      some { s with publishes := s.publishes ++ [s.snapshot topic message sender] }
    else none
  | .prune k =>
    match s.publishes[k]? with
    | none => none
    | some p =>
      if p.hasDead then
        some { s with
          topics := Function.update s.topics p.topic
            ((s.topics p.topic).filter fun wp ↦ !s.expired wp)
          publishes := s.publishes.set k { p with hasDead := false } }
      else none
  | .deliver k =>
    match s.publishes[k]? with
    | none => none
    | some p =>
      if p.hasDead = false ∧ p.isOpen then
        some { s with publishes := s.publishes.set k p.visit }
      else none

/-- The state after a sequence of events. -/
def run (s : TopicBus) (es : List Event) : Option TopicBus := Machine.run step s es

/-! ## What a step does -/

/-- **What a step does**, event by event. -/
inductive Moves (s : TopicBus) : Event → TopicBus → Prop
  | create {address} (h : address ∉ s.objects.map Subscriber.address) :
    Moves s (.create address) { s with
      objects := ⟨s.created, address⟩ :: s.objects
      alive := ⟨s.created, address⟩ :: s.alive
      created := s.created + 1 }
  | expire {o} (h : ∀ p ∈ s.publishes, p.isOpen = true → o ∉ p.liveSubs) :
    Moves s (.expire o) { s with alive := s.alive.filter (· ≠ o) }
  | free {o} (hdead : o ∉ s.alive) (h : ∀ p ∈ s.publishes, p.isOpen = true → p.sender ≠ some o) :
    Moves s (.free o) { s with objects := s.objects.filter (· ≠ o) }
  | subscribe {topic o} (h : o ∈ s.alive) : Moves s (.subscribe topic o) (s.subscribe topic o)
  | unsubscribe {o} (h : o ∈ s.objects) : Moves s (.unsubscribe o) (s.unsubscribe o)
  | publish {topic message sender} (h : ∀ o ∈ sender, o ∈ s.objects) :
    Moves s (.publish topic message sender)
      { s with publishes := s.publishes ++ [s.snapshot topic message sender] }
  | prune {k p} (hp : s.publishes[k]? = some p) : Moves s (.prune k) { s with
      topics := Function.update s.topics p.topic
        ((s.topics p.topic).filter fun wp ↦ !s.expired wp)
      publishes := s.publishes.set k { p with hasDead := false } }
  | deliver {k p} (hp : s.publishes[k]? = some p) (hopen : p.isOpen = true) :
    Moves s (.deliver k) { s with publishes := s.publishes.set k p.visit }

theorem moves_of_step {s s' : TopicBus} {e : Event} (h : s.step e = some s') : Moves s e s' := by
  cases e with
  | create address =>
    rw [step] at h
    split at h <;> cases h
    exact .create ‹_›
  | expire o =>
    rw [step] at h
    split at h <;> cases h
    next hpinned => exact .expire fun p hp hopen hmem ↦ hpinned ⟨p, hp, hopen, hmem⟩
  | free o =>
    rw [step] at h
    split at h <;> cases h
    next hpinned =>
      obtain ⟨hdead, hsender⟩ := not_or.mp hpinned
      exact .free hdead fun p hp hopen hmem ↦ hsender ⟨p, hp, hopen, hmem⟩
  | subscribe topic o =>
    rw [step] at h
    split at h <;> cases h
    exact .subscribe ‹_›
  | unsubscribe o =>
    rw [step] at h
    split at h <;> cases h
    exact .unsubscribe ‹_›
  | publish topic message sender =>
    rw [step] at h
    split at h <;> cases h
    exact .publish ‹_›
  | prune k =>
    rw [step] at h
    split at h
    · cases h
    · split at h <;> cases h
      exact .prune ‹_›
  | deliver k =>
    rw [step] at h
    split at h
    · cases h
    · split at h <;> cases h
      next hready => exact .deliver ‹_› hready.2

end TopicBus

end Aevox
