import Aevox.WebSocket.TopicBus

/-!
# What the topic bus is for

To its users a bus is a relation: a topic has subscribers, in the order of their subscriptions.
Publishing a message delivers it to each of them but the sender, one after another, and counts the
deliveries. Nobody is subscribed twice, who unsubscribes or expires is removed from every topic, and
there is nothing to be purged.

`relation` forgets the expired entries of a bus. Every step of the bus is a step of the relation, or
none if it only concerns memory or dead entries (`topic_bus_refines`).
-/

namespace Aevox

/-! ## The relation -/

/-- A message on its way to its audience. -/
structure Broadcast where
  message : Bytes
  sender : Option TopicBus.Subscriber
  audience : List TopicBus.Subscriber
  toVisit : List TopicBus.Subscriber
  delivered : List (TopicBus.Subscriber × Bytes)
  returned : Option ℕ

/-- The subscribers of each topic, and what has been published. -/
structure Topics where
  subscribers : Bytes → List TopicBus.Subscriber
  broadcasts : List Broadcast

namespace Topics

open TopicBus

/-- What can happen. -/
inductive Event where
  | subscribe (topic : Bytes) (o : Subscriber)
  | remove (o : Subscriber)
  | publish (topic message : Bytes) (sender : Option Subscriber)
  | deliver (k : ℕ)

/-- Nobody is subscribed, and nothing has been published. -/
def start : Topics where
  subscribers _ := []
  broadcasts := []

/-- The next subscriber gets the message, unless it has sent it; or the deliveries are counted. -/
def visit (b : Broadcast) : Broadcast :=
  match b.toVisit with
  | [] => { b with returned := some b.delivered.length }
  | o :: rest =>
    if b.sender = some o then { b with toVisit := rest }
    else { b with toVisit := rest, delivered := b.delivered ++ [(o, b.message)] }

def step (s : Topics) : Event → Option Topics
  | .subscribe topic o =>
    if o ∈ s.subscribers topic then some s
    else some { s with
      subscribers := Function.update s.subscribers topic (s.subscribers topic ++ [o]) }
  | .remove o =>
    some { s with subscribers := fun topic ↦ (s.subscribers topic).filter (· ≠ o) }
  | .publish topic message sender =>
    let audience := s.subscribers topic
    some { s with
      broadcasts := s.broadcasts ++ [⟨message, sender, audience, audience, [], none⟩] }
  | .deliver k => (s.broadcasts[k]?).map fun b ↦
      { s with broadcasts := s.broadcasts.set k (visit b) }

theorem visit_nil {b : Broadcast} (h : b.toVisit = []) :
    visit b = { b with returned := some b.delivered.length } := by
  rw [visit, h]

theorem visit_cons {b : Broadcast} {o : Subscriber} {rest : List Subscriber}
    (h : b.toVisit = o :: rest) : visit b = if b.sender = some o then { b with toVisit := rest }
      else { b with toVisit := rest, delivered := b.delivered ++ [(o, b.message)] } := by
  rw [visit, h]

end Topics

namespace TopicBus

/-! ## A bus seen as a relation -/

/-- A call as a broadcast. -/
def Publish.broadcast (p : Publish) : Broadcast :=
  ⟨p.message, p.sender, p.liveSubs, p.toVisit, p.delivered, p.returned⟩

/-- A bus as a relation: expired entries do not count. -/
def relation (s : TopicBus) : Topics where
  subscribers topic := (s.topics topic).filter fun wp ↦ !s.expired wp
  broadcasts := s.publishes.map Publish.broadcast

/-- What an event means to the relation. -/
def Event.view : Event → List Topics.Event
  | create _ => []
  | expire o => [.remove o]
  | free _ => []
  | subscribe topic o => [.subscribe topic o]
  | unsubscribe o => [.remove o]
  | publish topic message sender => [.publish topic message sender]
  | prune _ => []
  | deliver k => [.deliver k]

/-- A call has delivered its message to those of the snapshot it has visited, but the sender, and
returns their number. -/
structure Publish.Sound (p : Publish) : Prop where
  delivered : ∃ visited, p.liveSubs = visited ++ p.toVisit ∧
    p.delivered = (visited.filter fun o ↦ p.sender ≠ some o).map fun o ↦ (o, p.message)
  deliveries : p.deliveries = p.delivered.length
  returned : ∀ n, p.returned = some n → p.toVisit = [] ∧ n = p.delivered.length
  nodup : p.liveSubs.Nodup

/-- The invariant. -/
structure Inv (s : TopicBus) : Prop where
  addresses : (s.objects.map Subscriber.address).Nodup
  alive : ∀ o ∈ s.alive, o ∈ s.objects
  allocated : ∀ o ∈ s.objects, o.id < s.created
  recorded : ∀ topic, ∀ wp ∈ s.topics topic, wp.id < s.created
  nodup : ∀ topic, (s.topics topic).Nodup
  owned : ∀ p ∈ s.publishes, p.isOpen = true → ∀ o ∈ p.liveSubs, o ∈ s.alive
  senders : ∀ p ∈ s.publishes, p.isOpen = true → ∀ o ∈ p.sender, o ∈ s.objects
  sound : ∀ p ∈ s.publishes, p.Sound

theorem inv_start : Inv start where
  addresses := .nil
  alive := nofun
  allocated := nofun
  recorded _ := nofun
  nodup _ := .nil
  owned := nofun
  senders := nofun
  sound := nofun

variable {s : TopicBus}

@[simp] theorem not_expired_iff {wp : Subscriber} : (!s.expired wp) = true ↔ wp ∈ s.alive := by
  simp [expired]

/-- **Addresses tell live objects apart.** -/
theorem Inv.address_eq_iff (hs : Inv s) {wp o : Subscriber} (hwp : wp ∈ s.objects)
    (ho : o ∈ s.objects) : wp.address = o.address ↔ wp = o :=
  ⟨fun h ↦ List.inj_on_of_nodup_map hs.addresses hwp ho h, congrArg Subscriber.address⟩

/-- A pointer that can be locked leads to the object it was made from. -/
theorem Inv.isAt_iff (hs : Inv s) {wp o : Subscriber} (ho : o ∈ s.objects) :
    s.isAt o wp = true ↔ wp ∈ s.alive ∧ wp = o := by
  rw [isAt, Bool.and_eq_true, not_expired_iff, decide_eq_true_iff]
  exact and_congr_right fun hwp ↦ hs.address_eq_iff (hs.alive wp hwp) ho

theorem Inv.any_isAt_iff (hs : Inv s) {o : Subscriber} (ho : o ∈ s.alive) (topic : Bytes) :
    (s.topics topic).any (s.isAt o) = true ↔ o ∈ s.topics topic := by
  rw [List.any_eq_true]
  constructor
  · rintro ⟨wp, hwp, hat⟩
    exact ((hs.isAt_iff (hs.alive o ho)).mp hat).2 ▸ hwp
  · exact fun hmem ↦ ⟨o, hmem, (hs.isAt_iff (hs.alive o ho)).mpr ⟨ho, rfl⟩⟩

theorem Inv.kept_iff (hs : Inv s) {wp o : Subscriber} (ho : o ∈ s.objects) :
    (!(s.expired wp || wp.address = o.address)) = true ↔ wp ∈ s.alive ∧ wp ≠ o := by
  rw [Bool.not_or, Bool.and_eq_true, not_expired_iff, Bool.not_eq_true', decide_eq_false_iff_not]
  exact and_congr_right fun hwp ↦ not_congr (hs.address_eq_iff (hs.alive wp hwp) ho)

theorem Inv.isSender_iff (hs : Inv s) {p : Publish} (hp : p ∈ s.publishes)
    (hopen : p.isOpen = true) {o : Subscriber} (ho : o ∈ p.liveSubs) :
    (p.sender.any fun sender ↦ o.address = sender.address) = true ↔ p.sender = some o := by
  have hobject := hs.alive o (hs.owned p hp hopen o ho)
  cases hsender : p.sender with
  | none => simp
  | some sender =>
    have hsender' := hs.senders p hp hopen sender hsender
    rw [Option.any_some, decide_eq_true_iff, hs.address_eq_iff hobject hsender', Option.some_inj]
    exact eq_comm

/-! ## Visits -/

theorem visit_nil {p : Publish} (h : p.toVisit = []) :
    p.visit = { p with returned := some p.deliveries } := by
  rw [Publish.visit, h]

theorem visit_cons {p : Publish} {o : Subscriber} {rest : List Subscriber}
    (h : p.toVisit = o :: rest)
    (hsender : (p.sender.any fun sender ↦ o.address = sender.address) = true
      ↔ p.sender = some o) :
    p.visit = if p.sender = some o then { p with toVisit := rest } else { p with
      toVisit := rest
      deliveries := p.deliveries + 1
      delivered := p.delivered ++ [(o, p.message)] } := by
  rw [Publish.visit, h]
  simp only [hsender]

/-- What is still to be visited is in the snapshot. -/
theorem Publish.Sound.mem_liveSubs {p : Publish} (hp : p.Sound) {o : Subscriber}
    (ho : o ∈ p.toVisit) : o ∈ p.liveSubs := by
  obtain ⟨visited, hvisited, -⟩ := hp.delivered
  exact hvisited ▸ List.mem_append_right visited ho

theorem Publish.Sound.visit {p : Publish} (hp : p.Sound) (hopen : p.isOpen = true)
    (hsender : ∀ o ∈ p.toVisit,
      ((p.sender.any fun sender ↦ o.address = sender.address) = true ↔ p.sender = some o)) :
    p.visit.Sound := by
  obtain ⟨visited, hvisited, hdelivered⟩ := hp.delivered
  have hreturned : p.returned = none := Option.isNone_iff_eq_none.mp hopen
  cases htoVisit : p.toVisit with
  | nil =>
    rw [visit_nil htoVisit]
    exact ⟨⟨visited, hvisited, hdelivered⟩, hp.deliveries,
      fun n hn ↦ ⟨htoVisit, (Option.some.inj hn).symm.trans hp.deliveries⟩, hp.nodup⟩
  | cons o rest =>
    have hone : p.liveSubs = (visited ++ [o]) ++ rest := by
      rw [hvisited, htoVisit, List.append_assoc]
      rfl
    have hnone : ∀ {P : Prop} n, p.returned = some n → P := fun n hn ↦
      absurd (hreturned.symm.trans hn) (Option.some_ne_none n).symm
    rw [visit_cons htoVisit (hsender o (htoVisit ▸ List.mem_cons_self))]
    by_cases hself : p.sender = some o
    · rw [if_pos hself]
      refine ⟨⟨visited ++ [o], hone, hdelivered.trans ?_⟩, hp.deliveries, fun n ↦ hnone n,
        hp.nodup⟩
      simp [hself]
    · rw [if_neg hself]
      refine ⟨⟨visited ++ [o], hone, ?_⟩, ?_, fun n ↦ hnone n, hp.nodup⟩
      · simp [hdelivered, hself]
      · rw [List.length_append, hp.deliveries]
        rfl

theorem broadcast_visit {p : Publish} (hp : p.Sound)
    (hsender : ∀ o ∈ p.toVisit,
      ((p.sender.any fun sender ↦ o.address = sender.address) = true ↔ p.sender = some o)) :
    p.visit.broadcast = Topics.visit p.broadcast := by
  cases htoVisit : p.toVisit with
  | nil =>
    rw [visit_nil htoVisit, Topics.visit_nil (b := p.broadcast) htoVisit, Publish.broadcast,
      hp.deliveries]
    rfl
  | cons o rest =>
    rw [visit_cons htoVisit (hsender o (htoVisit ▸ List.mem_cons_self)),
      Topics.visit_cons (b := p.broadcast) htoVisit]
    change _ = if p.sender = some o then _ else _
    split <;> rfl

/-! ## Every step -/

theorem Inv.subscribe (hs : Inv s) {topic : Bytes} {o : Subscriber} (ho : o ∈ s.alive) :
    Inv (s.subscribe topic o) := by
  rw [TopicBus.subscribe]
  by_cases hany : (s.topics topic).any (s.isAt o) = true
  · rw [if_pos hany]
    exact hs
  rw [if_neg hany]
  have hnot : o ∉ s.topics topic := fun hmem ↦ hany ((hs.any_isAt_iff ho topic).mpr hmem)
  refine ⟨hs.addresses, hs.alive, hs.allocated, fun t wp hwp ↦ ?_, fun t ↦ ?_, hs.owned,
    hs.senders, hs.sound⟩
  · dsimp only at hwp
    by_cases ht : t = topic
    · subst ht
      rw [Function.update_self] at hwp
      rcases List.mem_append.mp hwp with hwp | hwp
      · exact hs.recorded t wp hwp
      · rw [List.mem_singleton.mp hwp]
        exact hs.allocated o (hs.alive o ho)
    · rw [Function.update_of_ne ht] at hwp
      exact hs.recorded t wp hwp
  · dsimp only
    by_cases ht : t = topic
    · subst ht
      rw [Function.update_self]
      exact (hs.nodup t).append (List.nodup_singleton o) (List.disjoint_singleton.mpr hnot)
    · rw [Function.update_of_ne ht]
      exact hs.nodup t

theorem Inv.of_sublist (hs : Inv s) {topics : Bytes → List Subscriber}
    (htopics : ∀ topic, (topics topic).Sublist (s.topics topic)) : Inv { s with topics } :=
  ⟨hs.addresses, hs.alive, hs.allocated,
    fun t wp hwp ↦ hs.recorded t wp ((htopics t).subset hwp),
    fun t ↦ (hs.nodup t).sublist (htopics t), hs.owned, hs.senders, hs.sound⟩

theorem Inv.set (hs : Inv s) {k : ℕ} {p : Publish} (p' : Publish)
    (hp : s.publishes[k]? = some p) (hopen : p'.isOpen = true → p.isOpen = true)
    (hsnapshot : p'.liveSubs = p.liveSubs) (hsender : p'.sender = p.sender) (hsound : p'.Sound) :
    Inv { s with publishes := s.publishes.set k p' } := by
  have hmem : p ∈ s.publishes := List.mem_of_getElem? hp
  refine ⟨hs.addresses, hs.alive, hs.allocated, hs.recorded, hs.nodup, fun q hq hq' ↦ ?_,
    fun q hq hq' ↦ ?_, fun q hq ↦ ?_⟩
  · rcases List.mem_or_eq_of_mem_set hq with hq | rfl
    · exact hs.owned q hq hq'
    · rw [hsnapshot]
      exact hs.owned p hmem (hopen hq')
  · rcases List.mem_or_eq_of_mem_set hq with hq | rfl
    · exact hs.senders q hq hq'
    · rw [hsender]
      exact hs.senders p hmem (hopen hq')
  · rcases List.mem_or_eq_of_mem_set hq with hq | rfl
    · exact hs.sound q hq
    · exact hsound

@[simp] theorem liveSubs_visit (p : Publish) : p.visit.liveSubs = p.liveSubs := by
  unfold Publish.visit
  split
  · rfl
  · split <;> rfl

@[simp] theorem sender_visit (p : Publish) : p.visit.sender = p.sender := by
  unfold Publish.visit
  split
  · rfl
  · split <;> rfl

theorem Inv.snapshot (hs : Inv s) (topic message : Bytes) (sender : Option Subscriber) :
    (s.snapshot topic message sender).Sound :=
  ⟨⟨[], rfl, rfl⟩, rfl, fun n hn ↦ absurd hn (Option.some_ne_none n).symm,
    (hs.nodup topic).sublist List.filter_sublist⟩

/-- **Every step keeps the invariant.** -/
theorem inv_of_moves {s' : TopicBus} {e : Event} (hs : Inv s) (h : Moves s e s') : Inv s' := by
  cases h with
  | create h =>
    refine ⟨List.nodup_cons.mpr ⟨h, hs.addresses⟩, ?_, ?_, ?_, hs.nodup, ?_, ?_, hs.sound⟩
    · rintro o (_ | ho)
      · exact List.mem_cons_self
      · exact List.mem_cons_of_mem _ (hs.alive o ‹_›)
    · rintro o (_ | ho)
      · exact Nat.lt_succ_self s.created
      · exact Nat.lt_succ_of_lt (hs.allocated o ‹_›)
    · exact fun topic wp hwp ↦ Nat.lt_succ_of_lt (hs.recorded topic wp hwp)
    · exact fun p hp hopen o ho ↦ List.mem_cons_of_mem _ (hs.owned p hp hopen o ho)
    · exact fun p hp hopen o ho ↦ List.mem_cons_of_mem _ (hs.senders p hp hopen o ho)
  | expire h =>
    refine ⟨hs.addresses, fun o ho ↦ hs.alive o (List.mem_of_mem_filter ho), hs.allocated,
      hs.recorded, hs.nodup, fun p hp hopen o ho ↦ ?_, hs.senders, hs.sound⟩
    refine List.mem_filter.mpr ⟨hs.owned p hp hopen o ho, decide_eq_true ?_⟩
    rintro rfl
    exact h p hp hopen ho
  | @free o hdead h =>
    have hkept {o' : Subscriber} (ho' : o' ∈ s.objects) (hne : o' ≠ o) :
        o' ∈ s.objects.filter (· ≠ o) := List.mem_filter.mpr ⟨ho', decide_eq_true hne⟩
    refine ⟨hs.addresses.sublist (List.filter_sublist.map _), fun o ho ↦ ?_,
      fun o ho ↦ hs.allocated o (List.mem_of_mem_filter ho), hs.recorded, hs.nodup, hs.owned,
      fun p hp hopen o ho ↦ ?_, hs.sound⟩
    · exact hkept (hs.alive o ho) fun heq ↦ hdead (heq ▸ ho)
    · exact hkept (hs.senders p hp hopen o ho) fun heq ↦ h p hp hopen (heq ▸ ho)
  | subscribe h => exact hs.subscribe h
  | unsubscribe => exact hs.of_sublist fun topic ↦ List.filter_sublist
  | @publish topic message sender h =>
    refine ⟨hs.addresses, hs.alive, hs.allocated, hs.recorded, hs.nodup, fun p hp hopen o ho ↦ ?_,
      fun p hp hopen o ho ↦ ?_, fun p hp ↦ ?_⟩
    · rcases List.mem_append.mp hp with hp | hp
      · exact hs.owned p hp hopen o ho
      · rw [List.mem_singleton.mp hp] at ho
        exact not_expired_iff.mp (List.mem_filter.mp ho).2
    · rcases List.mem_append.mp hp with hp | hp
      · exact hs.senders p hp hopen o ho
      · rw [List.mem_singleton.mp hp] at ho
        exact h o ho
    · rcases List.mem_append.mp hp with hp | hp
      · exact hs.sound p hp
      · rw [List.mem_singleton.mp hp]
        exact hs.snapshot topic message sender
  | @prune k p hp =>
    have hsound := hs.sound p (List.mem_of_getElem? hp)
    have hset := hs.set { p with hasDead := false } hp id rfl rfl
      ⟨hsound.delivered, hsound.deliveries, hsound.returned, hsound.nodup⟩
    refine hset.of_sublist fun topic ↦ ?_
    by_cases ht : topic = p.topic
    · subst ht
      rw [Function.update_self]
      exact List.filter_sublist
    · rw [Function.update_of_ne ht]
  | @deliver k p hp hopen =>
    have hmem := List.mem_of_getElem? hp
    have hsound := hs.sound p hmem
    refine hs.set p.visit hp (fun _ ↦ hopen) (liveSubs_visit p) (sender_visit p)
      (hsound.visit hopen ?_)
    exact fun o ho ↦ hs.isSender_iff hmem hopen (hsound.mem_liveSubs ho)

/-! ## Every step as a step of the relation -/

theorem filter_eq_of_iff {l : List Subscriber} {p q : Subscriber → Bool}
    (h : ∀ wp ∈ l, (p wp = true ↔ q wp = true)) : l.filter p = l.filter q :=
  List.filter_congr fun wp hwp ↦ Bool.eq_iff_iff.mpr (h wp hwp)

theorem mem_subscribers_iff {topic : Bytes} {o : Subscriber} :
    o ∈ s.relation.subscribers topic ↔ o ∈ s.topics topic ∧ o ∈ s.alive := by
  rw [relation, List.mem_filter, not_expired_iff]

theorem some_relation {s' : TopicBus} {subscribers : Bytes → List Subscriber}
    {broadcasts : List Broadcast} (hsubscribers : ∀ topic,
      (s'.topics topic).filter (fun wp ↦ !s'.expired wp) = subscribers topic)
    (hbroadcasts : s'.publishes.map Publish.broadcast = broadcasts) :
    some ⟨subscribers, broadcasts⟩ = some s'.relation := by
  rw [relation, hbroadcasts, funext hsubscribers]

/-- What changes nothing in a call changes nothing in the list of calls. -/
theorem map_broadcast_set {k : ℕ} {p p' : Publish} (hp : s.publishes[k]? = some p)
    (h : p'.broadcast = p.broadcast) :
    (s.publishes.set k p').map Publish.broadcast = s.publishes.map Publish.broadcast := by
  obtain ⟨hk, rfl⟩ := List.getElem?_eq_some_iff.mp hp
  rw [List.map_set, h, ← List.map_set, List.set_getElem_self]

theorem relation_subscribe (hs : Inv s) {topic : Bytes} {o : Subscriber} (ho : o ∈ s.alive) :
    s.relation.step (.subscribe topic o) = some (s.subscribe topic o).relation := by
  rw [Topics.step, TopicBus.subscribe]
  by_cases hmem : o ∈ s.topics topic
  · rw [if_pos ((hs.any_isAt_iff ho topic).mpr hmem),
      if_pos (mem_subscribers_iff.mpr ⟨hmem, ho⟩)]
  · rw [if_neg fun hany ↦ hmem ((hs.any_isAt_iff ho topic).mp hany),
      if_neg fun hsub ↦ hmem (mem_subscribers_iff.mp hsub).1]
    refine some_relation (fun t ↦ ?_) (by rfl)
    by_cases ht : t = topic
    · subst ht
      dsimp only [relation]
      rw [Function.update_self, Function.update_self, List.filter_append]
      refine congrArg _ (List.filter_cons_of_pos ?_)
      exact not_expired_iff.mpr ho
    · dsimp only [relation]
      rw [Function.update_of_ne ht, Function.update_of_ne ht]
      rfl

/-- **Every step of the bus is a step of the relation**, or none. -/
theorem relation_of_moves {s' : TopicBus} {e : Event} (hs : Inv s) (h : Moves s e s') :
    Machine.run Topics.step s.relation e.view = some s'.relation := by
  cases h with
  | create h =>
    refine some_relation (fun topic ↦ filter_eq_of_iff fun wp hwp ↦ ?_) (by rfl)
    rw [not_expired_iff, not_expired_iff, List.mem_cons]
    apply or_iff_right
    rintro rfl
    exact absurd (hs.recorded topic _ hwp) (Nat.lt_irrefl _)
  | expire h =>
    rw [Event.view, Machine.run_singleton]
    refine some_relation (fun topic ↦ ?_) (by rfl)
    rw [relation, List.filter_filter]
    refine filter_eq_of_iff fun wp _ ↦ ?_
    rw [not_expired_iff, Bool.and_eq_true, not_expired_iff, List.mem_filter]
    exact and_comm
  | free => rfl
  | subscribe h =>
    rw [Event.view, Machine.run_singleton]
    exact relation_subscribe hs h
  | unsubscribe h =>
    rw [Event.view, Machine.run_singleton]
    refine some_relation (fun topic ↦ ?_) (by rfl)
    rw [relation, List.filter_filter, unsubscribe, List.filter_filter]
    refine filter_eq_of_iff fun wp _ ↦ ?_
    rw [Bool.and_eq_true, hs.kept_iff h, Bool.and_eq_true, not_expired_iff, not_expired_iff,
      decide_eq_true_iff]
    exact ⟨fun h ↦ ⟨h.2.2, h.1⟩, fun h ↦ ⟨h.2, h.2, h.1⟩⟩
  | publish h =>
    rw [Event.view, Machine.run_singleton]
    refine some_relation (fun topic ↦ by rfl) ?_
    rw [List.map_append]
    rfl
  | @prune k p hp =>
    refine some_relation (fun topic ↦ ?_) (map_broadcast_set hp (by rfl))
    by_cases ht : topic = p.topic
    · subst ht
      dsimp only [relation]
      rw [Function.update_self, List.filter_filter]
      exact filter_eq_of_iff fun wp _ ↦ iff_of_eq (congrArg (· = true) (Bool.and_self _))
    · dsimp only [relation]
      rw [Function.update_of_ne ht]
      rfl
  | @deliver k p hp hopen =>
    have hmem := List.mem_of_getElem? hp
    have hsound := hs.sound p hmem
    have hvisit : p.visit.broadcast = Topics.visit p.broadcast :=
      broadcast_visit hsound fun o ho ↦ hs.isSender_iff hmem hopen (hsound.mem_liveSubs ho)
    have hk : s.relation.broadcasts[k]? = some p.broadcast := by
      rw [relation, List.getElem?_map, hp]
      rfl
    rw [Event.view, Machine.run_singleton, Topics.step, hk]
    refine some_relation (fun topic ↦ by rfl) ?_
    rw [List.map_set, hvisit]
    rfl

/-! ## Every run -/

/-- What `publish` promises of a call: the messages it has delivered went to its snapshot, in which
nobody is twice, but not to the sender, in this order; and when it has returned, to all of it, and
it has returned their number. -/
structure Publish.Delivers (p : Publish) : Prop where
  once : p.liveSubs.Nodup
  inOrder : p.delivered <+: (p.liveSubs.filter fun o ↦ p.sender ≠ some o).map fun o ↦ (o, p.message)
  all : ∀ n, p.returned = some n → n = p.delivered.length ∧
    p.delivered = (p.liveSubs.filter fun o ↦ p.sender ≠ some o).map fun o ↦ (o, p.message)

theorem Publish.Sound.delivers {p : Publish} (hp : p.Sound) : p.Delivers := by
  obtain ⟨visited, hvisited, hdelivered⟩ := hp.delivered
  refine ⟨hp.nodup, ?_, ?_⟩
  · rw [hdelivered, hvisited, List.filter_append, List.map_append]
    exact List.prefix_append _ _
  · intro n hn
    obtain ⟨hdone, hcount⟩ := hp.returned n hn
    rw [hdone, List.append_nil] at hvisited
    exact ⟨hcount, by rw [hdelivered, hvisited]⟩

theorem relation_of_run {s' : TopicBus} {es : List Event} (hs : Inv s) (hrun : s.run es = some s') :
    Inv s' ∧ Machine.run Topics.step s.relation (es.flatMap Event.view) = some s'.relation := by
  have hinv (s : TopicBus) (e : Event) (s' : TopicBus) (hs : Inv s) (h : s.step e = some s') :
      Inv s' := inv_of_moves hs (moves_of_step h)
  refine ⟨Machine.run_invariant hinv hs hrun, Machine.run_simulation hinv ?_ hs hrun⟩
  exact fun s e s' hs hstep ↦ relation_of_moves hs (moves_of_step hstep)

/-- **The bus refines the relation.** In every run, what the bus does is what the relation does, in
which nobody expires silently and nothing is purged; every call of `publish` delivers to the live
subscribers in its snapshot; the snapshot is what the relation has for the topic; nobody is recorded
twice for a topic; `unsubscribe` removes its subscriber from every topic; and purging changes
nothing that follows. -/
theorem topic_bus_refines {es : List Event} (hrun : start.run es = some s) :
    Machine.run Topics.step .start (es.flatMap Event.view) = some s.relation ∧
      (∀ p ∈ s.publishes, p.Delivers) ∧
      (∀ topic message sender s', s.step (.publish topic message sender) = some s' →
        ∃ p, s'.publishes = s.publishes ++ [p] ∧ p.message = message ∧ p.sender = sender ∧
          p.liveSubs = s.relation.subscribers topic ∧ p.delivered = [] ∧ p.returned = none) ∧
      (∀ topic, (s.topics topic).Nodup) ∧
      (∀ o s', s.step (.unsubscribe o) = some s' → ∀ topic, o ∉ s'.topics topic) ∧
      (∀ k s', s.step (.prune k) = some s' → s'.relation = s.relation ∧
        ∀ es' t, s'.run es' = some t →
          Machine.run Topics.step s.relation (es'.flatMap Event.view) = some t.relation) := by
  obtain ⟨hs, hsim⟩ := relation_of_run inv_start hrun
  refine ⟨hsim, fun p hp ↦ (hs.sound p hp).delivers, ?_, hs.nodup, ?_, ?_⟩
  · intro topic message sender s' hstep
    cases moves_of_step hstep with
    | publish => exact ⟨_, rfl, rfl, rfl, rfl, rfl, rfl⟩
  · intro o s' hstep topic hmem
    cases moves_of_step hstep with
    | unsubscribe h => exact ((hs.kept_iff h).mp (List.mem_filter.mp hmem).2).2 rfl
  · intro k s' hstep
    have hmoves := moves_of_step hstep
    have hrelation : s'.relation = s.relation :=
      (Option.some.inj (relation_of_moves hs hmoves)).symm
    refine ⟨hrelation, fun es' t hrun' ↦ ?_⟩
    rw [← hrelation]
    exact (relation_of_run (inv_of_moves hs hmoves) hrun').2

/-- The first of two subscribers expires, and a third one gets its address, subscribes and
publishes: it is not taken for the first one. -/
theorem topic_bus_refines_reused_address : ∃ s : TopicBus, start.run
      [.create 5, .create 9, .subscribe [1] ⟨0, 5⟩, .subscribe [1] ⟨1, 9⟩, .expire ⟨0, 5⟩,
        .free ⟨0, 5⟩, .create 5, .subscribe [1] ⟨2, 5⟩, .publish [1] [7] (some ⟨2, 5⟩), .prune 0,
        .deliver 0, .deliver 0, .deliver 0] = some s ∧
    s.relation.subscribers [1] = [⟨1, 9⟩, ⟨2, 5⟩] ∧
    ∃ p ∈ s.publishes, p.returned = some 1 ∧ p.delivered = [(⟨1, 9⟩, [7])] ∧ p.Delivers := by
  obtain ⟨s, hrun, hsubscribers, p, hp, hreturned, hdelivered⟩ : ∃ s : TopicBus, start.run
        [.create 5, .create 9, .subscribe [1] ⟨0, 5⟩, .subscribe [1] ⟨1, 9⟩, .expire ⟨0, 5⟩,
          .free ⟨0, 5⟩, .create 5, .subscribe [1] ⟨2, 5⟩, .publish [1] [7] (some ⟨2, 5⟩), .prune 0,
          .deliver 0, .deliver 0, .deliver 0] = some s ∧
      s.relation.subscribers [1] = [⟨1, 9⟩, ⟨2, 5⟩] ∧
      ∃ p ∈ s.publishes, p.returned = some 1 ∧ p.delivered = [(⟨1, 9⟩, [7])] :=
    ⟨_, rfl, rfl, _, List.mem_singleton_self _, rfl, rfl⟩
  exact ⟨s, hrun, hsubscribers, p, hp, hreturned, hdelivered, (topic_bus_refines hrun).2.1 p hp⟩

end TopicBus

end Aevox
