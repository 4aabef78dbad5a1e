import Mathlib.Data.List.AList
import Mathlib.Data.Fintype.Powerset
import EventSourcery.Tenants

/-!
# Listeners

`Listeners` keeps sets of listeners in two dictionaries, by event type and by category. A
dispatch looks a record up in both: its class among the subclasses of all registered types,
its category as it is. A listener stands for the objects that are equal to it in Python. A set
is iterated in some order, which is a parameter.
-/
namespace EventSourcery

/-- What a listener can be registered to. -/
inductive SubscribedTo (T : Type) where
  | eventType (eventType : T)
  | category (category : String)
  deriving DecidableEq

structure Listeners (T L : Type) where
  toEventTypes : AList fun _ : T => Finset L := ∅
  toCategories : AList fun _ : String => Finset L := ∅

/-- A call that changes the listeners. -/
inductive Registration (T L : Type) where
  | register (listener : L) (subscribedTo : SubscribedTo T)
  | remove (listener : L) (subscribedTo : SubscribedTo T)
  deriving DecidableEq

namespace Listeners

/-- An order in which the elements of a set are iterated. -/
structure SetOrder (L : Type) where
  iterate : Finset L → List L
  isSet : ∀ held, (iterate held : Multiset L) = held.val

theorem SetOrder.mem_iterate {L : Type} (order : SetOrder L) {held : Finset L} {listener : L} :
    listener ∈ order.iterate held ↔ listener ∈ held := by
  rw [← Multiset.mem_coe, order.isSet, Finset.mem_val]

theorem SetOrder.nodup_iterate {L : Type} (order : SetOrder L) (held : Finset L) :
    (order.iterate held).Nodup := by
  rw [← Multiset.coe_nodup, order.isSet]
  exact held.nodup

variable {T L E : Type} [DecidableEq T] [DecidableEq L]

/-- The set of a key, empty where the dictionary has none. -/
def heldFor {K : Type} [DecidableEq K] (key : K) (sets : AList fun _ : K => Finset L) : Finset L :=
  (sets.lookup key).getD ∅

section Code

/-- `__getitem__`, with what its iterator gives as a set. Looking up a category leaves an empty
set there, which nothing tells from none. -/
def getItem (issubclass : T → T → Bool) (listeners : Listeners T L) : SubscribedTo T → Finset L
  | .category category => heldFor category listeners.toCategories
  | .eventType eventType =>
      (listeners.toEventTypes.entries.filter fun entry => issubclass eventType entry.1).foldr
        (fun entry told => entry.2 ∪ told) ∅

def register (listener : L) (subscribedTo : SubscribedTo T) (listeners : Listeners T L) :
    Listeners T L :=
  match subscribedTo with
  | .category category =>
      { listeners with
        toCategories := listeners.toCategories.insert category
          (insert listener (heldFor category listeners.toCategories)) }
  | .eventType eventType =>
      { listeners with
        toEventTypes := listeners.toEventTypes.insert eventType
          (insert listener (heldFor eventType listeners.toEventTypes)) }

/-- Only the removal from a category raises when the listener is not there. -/
def remove (listener : L) (subscribedTo : SubscribedTo T) (listeners : Listeners T L) :
    Except Error Unit × Listeners T L :=
  match subscribedTo with
  | .category category =>
      let held := heldFor category listeners.toCategories
      (if listener ∈ held then .ok () else .error .keyError,
        { listeners with
          toCategories := listeners.toCategories.insert category (held.erase listener) })
  | .eventType eventType =>
      (.ok (),
        match listeners.toEventTypes.lookup eventType with
        | none => listeners
        | some held =>
            if listener ∈ held then
              { listeners with
                toEventTypes := listeners.toEventTypes.insert eventType (held.erase listener) }
            else listeners)

def step (listeners : Listeners T L) : Registration T L → Except Error Unit × Listeners T L
  | .register listener subscribedTo => (.ok (), listeners.register listener subscribedTo)
  | .remove listener subscribedTo => listeners.remove listener subscribedTo

end Code

/-! ## Registrations -/

/-- The listeners that are kept for exactly this type or category. -/
def heldAt (listeners : Listeners T L) : SubscribedTo T → Finset L
  | .category category => heldFor category listeners.toCategories
  | .eventType eventType => heldFor eventType listeners.toEventTypes

/-- Of the calls for a listener and what it is registered to, the last one is a registration. -/
def Registered (calls : List (Registration T L)) (listener : L) (subscribedTo : SubscribedTo T) :
    Prop :=
  (calls.filter fun call =>
    call = .register listener subscribedTo ∨ call = .remove listener subscribedTo).getLast? =
      some (.register listener subscribedTo)

instance (calls : List (Registration T L)) (listener : L) (subscribedTo : SubscribedTo T) :
    Decidable (Registered calls listener subscribedTo) := inferInstanceAs (Decidable (_ = _))

theorem Registered.mem {calls : List (Registration T L)} {listener : L}
    {subscribedTo : SubscribedTo T} (h : Registered calls listener subscribedTo) :
    .register listener subscribedTo ∈ calls :=
  List.mem_of_mem_filter (List.mem_of_getLast? h)

omit [DecidableEq L] in
@[simp] theorem heldFor_insert {K : Type} [DecidableEq K] (key other : K) (held : Finset L)
    (sets : AList fun _ : K => Finset L) :
    heldFor other (sets.insert key held) = if other = key then held else heldFor other sets := by
  unfold heldFor
  split
  · rename_i heq
    subst heq
    rw [AList.lookup_insert, Option.getD_some]
  · rename_i hne
    rw [AList.lookup_insert_ne hne]

section Lemmas
variable {listeners : Listeners T L} {listener other : L} {subscribedTo target : SubscribedTo T}

theorem mem_heldAt_register :
    other ∈ (listeners.register listener subscribedTo).heldAt target ↔
      (other = listener ∧ target = subscribedTo) ∨ other ∈ listeners.heldAt target := by
  cases subscribedTo with
  | category category =>
    cases target with
    | category name =>
      simp only [register, heldAt, heldFor_insert, SubscribedTo.category.injEq]
      by_cases h : name = category
      · simp [h]
      · simp [h]
    | eventType eventType => simp [register, heldAt]
  | eventType eventType =>
    cases target with
    | category name => simp [register, heldAt]
    | eventType type =>
      simp only [register, heldAt, heldFor_insert, SubscribedTo.eventType.injEq]
      by_cases h : type = eventType
      · simp [h]
      · simp [h]

/-- A removal takes the listener away, from what it names only, whether or not it raises. -/
theorem mem_heldAt_remove :
    other ∈ (listeners.remove listener subscribedTo).2.heldAt target ↔
      ¬ (other = listener ∧ target = subscribedTo) ∧ other ∈ listeners.heldAt target := by
  cases subscribedTo with
  | category category =>
    cases target with
    | category name =>
      simp only [remove, heldAt, heldFor_insert, SubscribedTo.category.injEq]
      by_cases h : name = category
      · simp [h]
      · simp [h]
    | eventType eventType => simp [remove, heldAt]
  | eventType eventType =>
    cases target with
    | category name =>
      simp only [remove, heldAt]
      split
      · simp
      · split <;> simp
    | eventType type =>
      simp only [remove, heldAt, SubscribedTo.eventType.injEq]
      split
      · rename_i hnone
        simp only [iff_and_self, not_and]
        rintro hmem rfl rfl
        simp [heldFor, hnone] at hmem
      · rename_i held hheld
        have hheldFor : heldFor eventType listeners.toEventTypes = held := by
          simp [heldFor, hheld]
        split
        · simp only [heldFor_insert]
          by_cases h : type = eventType
          · simp [h, hheldFor]
          · simp [h]
        · rename_i habsent
          simp only [iff_and_self, not_and]
          rintro hmem rfl rfl
          exact habsent (hheldFor ▸ hmem)

/-- The sets are those of the registrations that no removal has followed. -/
theorem mem_heldAt_run (calls : List (Registration T L)) (listener : L)
    (subscribedTo : SubscribedTo T) :
    listener ∈ (Runs.run step ({} : Listeners T L) calls).2.heldAt subscribedTo ↔
      Registered calls listener subscribedTo := by
  induction calls using List.reverseRecOn with
  | nil => cases subscribedTo <;> simp [heldAt, heldFor, Registered]
  | append_singleton calls call ih =>
    rw [Runs.run_append]
    unfold Registered at ih ⊢
    rw [List.filter_append]
    cases call with
    | register other target =>
      change listener ∈ (register other target _).heldAt subscribedTo ↔ _
      rw [mem_heldAt_register, ih]
      by_cases h : listener = other ∧ subscribedTo = target
      · simp [h.1, h.2]
      · have hcall : ¬ (other = listener ∧ target = subscribedTo) := fun hsame =>
          h ⟨hsame.1.symm, hsame.2.symm⟩
        simp [h, hcall]
    | remove other target =>
      change listener ∈ (remove other target _).2.heldAt subscribedTo ↔ _
      rw [mem_heldAt_remove, ih]
      by_cases h : listener = other ∧ subscribedTo = target
      · simp [h.1, h.2]
      · have hcall : ¬ (other = listener ∧ target = subscribedTo) := fun hsame =>
          h ⟨hsame.1.symm, hsame.2.symm⟩
        simp [h, hcall]

theorem mem_getItem_eventType {issubclass : T → T → Bool} {eventType : T} :
    listener ∈ listeners.getItem issubclass (.eventType eventType) ↔
      ∃ registeredTo, issubclass eventType registeredTo = true ∧
        listener ∈ listeners.heldAt (.eventType registeredTo) := by
  have hfold : ∀ entries : List (Sigma fun _ : T => Finset L),
      listener ∈ entries.foldr (fun entry told => entry.2 ∪ told) ∅ ↔
        ∃ entry ∈ entries, listener ∈ entry.2 := by
    intro entries
    induction entries with
    | nil => simp
    | cons entry entries ih => simp [ih]
  simp only [getItem, hfold, heldAt, heldFor, List.mem_filter]
  constructor
  · rintro ⟨⟨registeredTo, held⟩, ⟨hentry, hsub⟩, hmem⟩
    have hlookup := AList.mem_lookup_iff.2 hentry
    rw [Option.mem_def] at hlookup
    exact ⟨registeredTo, hsub, by rw [hlookup]; exact hmem⟩
  · rintro ⟨registeredTo, hsub, hmem⟩
    cases hlookup : listeners.toEventTypes.lookup registeredTo with
    | none => simp [hlookup] at hmem
    | some held =>
      rw [hlookup] at hmem
      exact ⟨⟨registeredTo, held⟩, ⟨AList.mem_lookup_iff.1 hlookup, hsub⟩, hmem⟩

end Lemmas

/-! ## Dispatch -/

/-- What a dispatch meets: the classes of events, and how the set made for a record is
iterated. -/
structure Surroundings (T L E : Type) where
  classOf : E → T
  issubclass : T → T → Bool
  order : Recorded E → SetOrder L

section Code
variable (around : Surroundings T L E) (answer : L → Recorded E → Except Error Unit)
  (serde : Serde E) (listeners : Listeners T L)

/-- The set that `dispatch` makes for a record. -/
def told (record : Recorded E) : Finset L :=
  listeners.getItem around.issubclass (.eventType (around.classOf record.wrappedEvent.event)) ∪
    listeners.getItem around.issubclass (.category record.streamId.categoryText)

/-- The inner loop of `dispatch`, with the calls that it makes. -/
def tell (record : Recorded E) : List L → Except Error Unit × List (L × Recorded E)
  | [] => (.ok (), [])
  | listener :: rest =>
      match answer listener record with
      | .error e => (.error e, [(listener, record)])
      | .ok () =>
          let r := tell record rest
          (r.1, (listener, record) :: r.2)

def dispatch : List RecordedRaw → Except Error Unit × List (L × Recorded E)
  | [] => (.ok (), [])
  | raw :: raws =>
      match serde.deserializeRecord raw with
      | .error e => (.error (.serde e), [])
      | .ok record =>
          match tell answer record
            ((around.order record).iterate (listeners.told around record)) with
          | (.error e, calls) => (.error e, calls)
          | (.ok (), calls) =>
              let r := dispatch raws
              (r.1, calls ++ r.2)

/-- The dispatcher of a store with these listeners. -/
def dispatcher : Dispatcher E where
  serde := serde
  listeners record :=
    ((around.order record).iterate (listeners.told around record)).map answer

end Code

/-- The records that a listener was called with, in order. -/
def received {R : Type} (listener : L) (calls : List (L × R)) : List R :=
  (calls.filter fun call => call.1 = listener).map Prod.snd

/-- A record is what the listener can be registered to: it is of a subclass of the event type,
or of the category, where no category is the empty one. -/
def Matches (around : Surroundings T L E) (record : Recorded E) :
    SubscribedTo T → Prop
  | .eventType registeredTo =>
      around.issubclass (around.classOf record.wrappedEvent.event) registeredTo = true
  | .category category => category = record.streamId.category.getD ""

instance (around : Surroundings T L E) (record : Recorded E) (subscribedTo : SubscribedTo T) :
    Decidable (Matches around record subscribedTo) :=
  match subscribedTo with
  | .eventType _ => inferInstanceAs (Decidable (_ = _))
  | .category _ => inferInstanceAs (Decidable (_ = _))

/-- The listener is registered to something that the record matches. -/
def Concerned (around : Surroundings T L E) (calls : List (Registration T L)) (listener : L)
    (record : Recorded E) : Prop :=
  ∃ subscribedTo, Matches around record subscribedTo ∧
    Registered calls listener subscribedTo

/-- What a call registers to, or removes from. -/
def target : Registration T L → SubscribedTo T
  | .register _ subscribedTo => subscribedTo
  | .remove _ subscribedTo => subscribedTo

instance (around : Surroundings T L E) (calls : List (Registration T L)) (listener : L)
    (record : Recorded E) : Decidable (Concerned around calls listener record) :=
  decidable_of_iff
    (∃ call ∈ calls, Matches around record (target call) ∧
      Registered calls listener (target call))
    ⟨fun ⟨_, _, h⟩ => ⟨_, h⟩, fun ⟨_, h⟩ => ⟨_, h.2.mem, h⟩⟩

theorem received_append {R : Type} (listener : L) (calls calls' : List (L × R)) :
    received listener (calls ++ calls') = received listener calls ++ received listener calls' := by
  simp [received]

theorem received_once {R : Type} {listener : L} {told : List L} (h : told.Nodup) (record : R) :
    received listener (told.map fun other => (other, record)) =
      if listener ∈ told then [record] else [] := by
  unfold received
  rw [List.filter_map, List.map_map]
  change (told.filter (· = listener)).map (fun _ => record) = _
  rw [List.filter_eq, h.count]
  split <;> rfl

section Dispatches
variable {around : Surroundings T L E} {answer : L → Recorded E → Except Error Unit}
  {serde : Serde E} {listeners : Listeners T L}

theorem mem_told {listener : L} {record : Recorded E} :
    listener ∈ listeners.told around record ↔
      ∃ subscribedTo, Matches around record subscribedTo ∧
        listener ∈ listeners.heldAt subscribedTo := by
  unfold told
  rw [Finset.mem_union, mem_getItem_eventType]
  constructor
  · rintro (⟨registeredTo, hsub, hmem⟩ | hmem)
    · exact ⟨.eventType registeredTo, hsub, hmem⟩
    · exact ⟨.category _, rfl, hmem⟩
  · rintro ⟨registeredTo | category, hmatches, hmem⟩
    · exact .inl ⟨registeredTo, hmatches, hmem⟩
    · cases hmatches
      exact .inr hmem

omit [DecidableEq T] in
/-- The answer of a dispatch is that of the store's dispatcher. -/
theorem dispatch_answer (raws : List RecordedRaw) :
    (listeners.dispatch around answer serde raws).1 =
      (listeners.dispatcher around answer serde).dispatch raws := by
  have htell : ∀ record rest, (tell answer record rest).1 =
      (rest.map answer).forM fun listener => listener record := by
    intro record rest
    induction rest with
    | nil => rfl
    | cons listener rest ih =>
      change _ = (answer listener record).bind fun _ =>
        (rest.map answer).forM fun listener => listener record
      rw [← ih, tell]
      cases answer listener record <;> rfl
  induction raws with
  | nil => rfl
  | cons raw raws ih =>
    rw [dispatch, Dispatcher.dispatch, ← ih]
    change _ = ((serde.deserializeRecord raw).mapError .serde).bind fun record =>
      ((listeners.dispatcher around answer serde).notify record).bind fun _ => _
    cases serde.deserializeRecord raw with
    | error e => rfl
    | ok record =>
      dsimp only [Except.mapError, Except.bind]
      have hnotify : (listeners.dispatcher around answer serde).notify record = _ :=
        (htell record ((around.order record).iterate (listeners.told around record))).symm
      rw [hnotify]
      rcases tell answer record _ with ⟨_ | _, calls⟩ <;> rfl

/-- The records that can be deserialized, in order. -/
def records (serde : Serde E) (raws : List RecordedRaw) : List (Recorded E) :=
  raws.filterMap fun raw => (serde.deserializeRecord raw).toOption

/-- The calls that a dispatch makes unless something raises. -/
def schedule (around : Surroundings T L E) (listeners : Listeners T L)
    (records : List (Recorded E)) : List (L × Recorded E) :=
  records.flatMap fun record =>
    ((around.order record).iterate (listeners.told around record)).map fun listener =>
      (listener, record)

omit [DecidableEq T] [DecidableEq L] in
variable (answer) in
theorem tell_calls (record : Recorded E) (rest : List L) :
    let r := tell answer record rest
    r.2 <+: (rest.map fun listener => (listener, record)) ∧
      (r.1 = .ok () → r.2 = rest.map fun listener => (listener, record)) ∧
      (r.1 = .ok () ↔ ∀ listener ∈ rest, answer listener record = .ok ()) := by
  induction rest with
  | nil => simp [tell]
  | cons listener rest ih =>
    obtain ⟨hinitial, hall, hok⟩ := ih
    cases hanswer : answer listener record with
    | error e => simp [tell, hanswer]
    | ok u =>
      simp only [tell, hanswer, List.map_cons, List.forall_mem_cons, true_and]
      exact ⟨(List.prefix_cons_inj _).2 hinitial, fun h => by rw [hall h], hok⟩

omit [DecidableEq T] in
variable (around answer serde listeners) in
theorem dispatch_calls (raws : List RecordedRaw) :
    let r := listeners.dispatch around answer serde raws
    r.2 <+: schedule around listeners (records serde raws) ∧
      (r.1 = .ok () → r.2 = schedule around listeners (records serde raws)) ∧
      (r.1 = .ok () ↔ ∀ raw ∈ raws, ∃ record, serde.deserializeRecord raw = .ok record ∧
        ∀ listener ∈ listeners.told around record, answer listener record = .ok ()) := by
  induction raws with
  | nil => simp [dispatch, records, schedule]
  | cons raw raws ih =>
    obtain ⟨hinitial, hall, hok⟩ := ih
    cases hrecord : serde.deserializeRecord raw with
    | error e => simp [dispatch, hrecord]
    | ok record =>
      obtain ⟨htold, htoldAll, htoldOk⟩ := tell_calls answer record
        ((around.order record).iterate (listeners.told around record))
      have hschedule : schedule around listeners (records serde (raw :: raws)) =
          (((around.order record).iterate (listeners.told around record)).map fun listener =>
            (listener, record)) ++ schedule around listeners (records serde raws) := by
        simp [records, schedule, hrecord, Except.toOption]
      simp only [SetOrder.mem_iterate] at htoldOk
      rw [hschedule]
      simp only [List.forall_mem_cons, hrecord, Except.ok.injEq, exists_eq_left']
      revert htold htoldAll htoldOk
      rw [dispatch, hrecord]
      dsimp only
      rcases tell answer record _ with ⟨_ | _, calls⟩
      · intro htold _ htoldOk
        refine ⟨htold.trans (List.prefix_append _ _), nofun, ?_⟩
        simp only [reduceCtorEq, false_iff] at htoldOk ⊢
        exact fun h => htoldOk h.1
      · intro _ htoldAll htoldOk
        obtain rfl := htoldAll rfl
        refine ⟨(List.prefix_append_right_inj _).2 hinitial, fun h => by rw [hall h], ?_⟩
        rw [hok]
        exact ⟨fun h => ⟨htoldOk.1 rfl, h⟩, fun h => h.2⟩

omit [DecidableEq T] in
/-- A listener is called once for each record of whose set it is. -/
theorem received_schedule (listener : L) (records : List (Recorded E)) :
    received listener (schedule around listeners records) =
      records.filter fun record => listener ∈ listeners.told around record := by
  induction records with
  | nil => rfl
  | cons record records ih =>
    change received listener (_ ++ schedule around listeners records) = _
    rw [received_append, ih, received_once ((around.order record).nodup_iterate _),
      List.filter_cons]
    simp only [SetOrder.mem_iterate]
    split <;> simp_all

/-- Every listener is called once for each record that matches something it is registered to, for
no other record, and in the order of the records, as far as the dispatch gets. It gets to its end
unless a record cannot be deserialized or a listener raises. -/
theorem dispatch_matches_registrations (around : Surroundings T L E)
    (answer : L → Recorded E → Except Error Unit) (serde : Serde E)
    (calls : List (Registration T L)) (raws : List RecordedRaw) (listener : L) :
    let dispatched := dispatch around answer serde (Runs.run step {} calls).2 raws
    let concerned := (records serde raws).filter fun record =>
      Concerned around calls listener record
    received listener dispatched.2 <+: concerned ∧
      (dispatched.1 = .ok () → received listener dispatched.2 = concerned) ∧
      (dispatched.1 = .ok () ↔ ∀ raw ∈ raws, ∃ record, serde.deserializeRecord raw = .ok record ∧
        ∀ listener, Concerned around calls listener record →
          answer listener record = .ok ()) := by
  intro dispatched concerned
  have htold : ∀ (listener : L) (record : Recorded E),
      listener ∈ told around (Runs.run step {} calls).2 record ↔
        Concerned around calls listener record := by
    intro listener record
    simp only [mem_told, mem_heldAt_run, Concerned]
  have hconcerned : received listener
      (schedule around (Runs.run step {} calls).2 (records serde raws)) = concerned := by
    rw [received_schedule]
    simp only [htold]
    rfl
  obtain ⟨hinitial, hall, hok⟩ := dispatch_calls around answer serde (Runs.run step {} calls).2 raws
  refine ⟨?_, fun h => ?_, ?_⟩
  · rw [← hconcerned]
    exact (hinitial.filter _).map _
  · rw [← hconcerned, ← hall h]
  · simp only [htold] at hok
    exact hok

end Dispatches

section Example
open Tenants

/-- The classes of events of a shop. -/
inductive ShopEvent where
  | event
  | orderPlaced
  deriving DecidableEq

/-- Three listeners, which are called from the first to the last. -/
def shop : Surroundings ShopEvent (Fin 3) Unit where
  classOf _ := .orderPlaced
  issubclass eventType registeredTo := eventType = registeredTo ∨ registeredTo = .event
  order _ := ⟨fun held => (List.finRange 3).filter (· ∈ held), by decide⟩

/-- One listener is registered twice, another one no longer. -/
def registrations : List (Registration ShopEvent (Fin 3)) :=
  [.register 0 (.eventType .event), .register 0 (.category "orders"),
    .register 1 (.category "orders"), .remove 1 (.category "orders"), .register 2 (.category "")]

/-- A record of an event of the shop. -/
def placedIn (category : Option String) (position : Position) : RecordedRaw :=
  { entry := { uuid := 2, streamId := { order with category }, createdAt := 0, name := "Event"
               data := [], context := [] }
    position }

/-- A record of each of two streams is dispatched to listeners that do not raise. -/
def dispatched : Except Error Unit × List (Fin 3 × Recorded Unit) :=
  dispatch shop (fun _ _ => .ok ()) plainSerde (Runs.run step {} registrations).2
    [placedIn (some "orders") 1, placedIn none 2]

theorem dispatch_matches_registrations_orders :
    (received 0 dispatched.2).map (·.position) = [1, 2] ∧
      (received 1 dispatched.2).map (·.position) = [] ∧
      (received 2 dispatched.2).map (·.position) = [2] := by
  have hall := fun listener => dispatch_matches_registrations shop (fun _ _ => .ok ()) plainSerde
    registrations [placedIn (some "orders") 1, placedIn none 2] listener
  have hok : dispatched.1 = .ok () :=
    (hall 0).2.2.2 (by simp [plainSerde, Serde.deserializeRecord, Serde.deserialize])
  have hreceived : ∀ listener, received listener dispatched.2 = _ := fun listener =>
    (hall listener).2.1 hok
  refine ⟨?_, ?_, ?_⟩
  · rw [hreceived]
    decide
  · rw [hreceived]
    decide
  · rw [hreceived]
    decide

end Example

end Listeners

end EventSourcery
