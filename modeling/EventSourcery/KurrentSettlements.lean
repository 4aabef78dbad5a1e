import EventSourcery.KurrentOutbox

/-!
# What a run of the KurrentDB outbox settles

`Outbox.run` over `KurrentDBOutboxStorageStrategy`. An entry that is published is settled when
its context ends: it is acknowledged, or refused when the publisher has raised. An entry that the
filter leaves out has no context, and nothing settles it: the server offers it again.
-/
namespace EventSourcery.Kurrent.KurrentSettlements
open Runs Tenants KurrentServer

/-- What the persistent subscription delivers. -/
structure Delivery where
  entry : RecordedEvent
  retryCount : Option ℕ

/-- A call of the persistent subscription about an entry. -/
inductive Settlement where
  | ack
  | park
  | retry
  deriving DecidableEq

/-- What a publisher does with the record at an index of a run: it returns, or it raises. -/
abbrev Publisher (E : Type) := ℕ → Recorded E → Bool

section Code
variable {E : Type} (strategy : KurrentDBOutboxStorageStrategy) (serde : Serde E)
  (publisher : Publisher E)

/-- The body of the loop in `Outbox.run`, with whether it ends without raising. -/
def publish (i : ℕ) (record : RecordedRaw) : Bool :=
  match serde.deserializeRecord record with
  | .error _ => false
  | .ok recorded => publisher i recorded

/-- The calls of `_publish_context` when its body has ended. -/
def publishContext (delivery : Delivery) (published : Bool) : List (Uuid × Settlement) :=
  if published then [(delivery.entry.id, .ack)]
  else
    let failureCount := delivery.retryCount.getD 0 + 1
    if strategy.reachedMaxNumberOfAttempts failureCount then [(delivery.entry.id, .park)]
    else [(delivery.entry.id, .retry)]

/-- One turn of the loop in `outbox_entries`, with the calls until the next one. -/
def settle (i : ℕ) (delivery : Delivery) : Except CodecError (List (Uuid × Settlement)) := do
  let record ← rawRecord delivery.entry
  if strategy.filterer record.entry then
    return publishContext strategy delivery (publish serde publisher i record)
  else return []

/-- The loop over what is delivered, with the calls for each entry that is read. -/
def settleEach : ℕ → List Delivery → Except CodecError (List (List (Uuid × Settlement)))
  | _, [] => .ok []
  | i, delivery :: deliveries => do
      let calls ← settle strategy serde publisher i delivery
      let rest ← settleEach (i + 1) deliveries
      return calls :: rest

/-- The entries that a run reads; the limit 0 is no limit of its own. -/
def read (liveBufferCount limit : ℕ) (deliveries : List Delivery) : List Delivery :=
  if liveBufferCount = 0 then [] else deliveries.take (if limit = 0 then 100 else limit)

/-- `Outbox.run`, where it ends normally with the calls for each entry that it has read. -/
def run (liveBufferCount limit : ℕ) (deliveries : List Delivery) :
    Except CodecError (List (List (Uuid × Settlement))) :=
  settleEach strategy serde publisher 0 (read liveBufferCount limit deliveries)

/-- What is due for an entry: it is acknowledged if it is left out or published, and refused if
the publisher raises, for good when the attempts are used up. -/
def due (i : ℕ) (delivery : Delivery) (record : RecordedRaw) : Settlement :=
  if strategy.filterer record.entry = false ∨ publish serde publisher i record then .ack
  else if strategy.maxPublishAttempts ≤ delivery.retryCount.getD 0 + 1 then .park
  else .retry

/-- Each entry that is read is settled by one call, the one that is due. -/
def SettledOnce (liveBufferCount limit : ℕ) (deliveries : List Delivery)
    (calls : List (List (Uuid × Settlement))) : Prop :=
  calls.length = (read liveBufferCount limit deliveries).length ∧
    ∀ i delivery, (read liveBufferCount limit deliveries)[i]? = some delivery →
      ∃ record, rawRecord delivery.entry = .ok record ∧
        calls[i]? = some [(delivery.entry.id, due strategy serde publisher i delivery record)]

/-- The filter leaves out no entry that is read. -/
def NoneLeftOut (liveBufferCount limit : ℕ) (deliveries : List Delivery) : Prop :=
  ∀ delivery ∈ read liveBufferCount limit deliveries, ∀ record,
    rawRecord delivery.entry = .ok record → strategy.filterer record.entry = true

end Code

section Settlements
variable {E : Type} {strategy : KurrentDBOutboxStorageStrategy} {serde : Serde E}
  {publisher : Publisher E} {delivery : Delivery} {deliveries : List Delivery}
  {calls : List (List (Uuid × Settlement))}

/-- The calls for one entry: the one that is due, or none where the entry is left out. -/
theorem settle_eq_ok {i : ℕ} {made : List (Uuid × Settlement)}
    (h : settle strategy serde publisher i delivery = .ok made) :
    ∃ record, rawRecord delivery.entry = .ok record ∧
      made = if strategy.filterer record.entry then
        [(delivery.entry.id, due strategy serde publisher i delivery record)] else [] := by
  obtain ⟨record, hrecord, h⟩ := bind_eq_ok.1 h
  refine ⟨record, hrecord, ?_⟩
  split at h
  · rename_i hfilter
    cases h
    unfold publishContext due KurrentDBOutboxStorageStrategy.reachedMaxNumberOfAttempts
    simp only [hfilter, if_true, Bool.true_eq_false, false_or, decide_eq_true_eq]
    split
    · rfl
    · split <;> rfl
  · rename_i hfilter
    cases h
    rw [if_neg hfilter]

/-- The calls of a run are those for each entry. -/
theorem settleEach_eq_ok {i : ℕ}
    (h : settleEach strategy serde publisher i deliveries = .ok calls) :
    calls.length = deliveries.length ∧ ∀ j delivery, deliveries[j]? = some delivery →
      ∃ made, calls[j]? = some made ∧
        settle strategy serde publisher (i + j) delivery = .ok made := by
  induction deliveries generalizing i calls with
  | nil =>
    cases h
    exact ⟨rfl, fun _ _ hnone => by cases hnone⟩
  | cons first deliveries ih =>
    obtain ⟨made, hmade, h⟩ := bind_eq_ok.1 h
    obtain ⟨rest, hrest, h⟩ := bind_eq_ok.1 h
    cases h
    obtain ⟨hlength, hcalls⟩ := ih hrest
    refine ⟨congrArg (· + 1) hlength, fun j delivery hdelivery => ?_⟩
    cases j with
    | zero =>
      cases hdelivery
      exact ⟨made, rfl, hmade⟩
    | succ j =>
      obtain ⟨later, hlater, hsettle⟩ := hcalls j delivery hdelivery
      exact ⟨later, hlater, by rwa [Nat.add_assoc, Nat.add_comm 1 j] at hsettle⟩

/-- In a run that ends normally each entry that is read is settled once, and as is due, if and
only if the filter leaves none out. -/
theorem settled_once_iff {liveBufferCount limit : ℕ}
    (h : run strategy serde publisher liveBufferCount limit deliveries = .ok calls) :
    SettledOnce strategy serde publisher liveBufferCount limit deliveries calls ↔
      NoneLeftOut strategy liveBufferCount limit deliveries := by
  obtain ⟨hlength, hcalls⟩ := settleEach_eq_ok h
  constructor
  · rintro ⟨-, hsettled⟩ delivery hdelivery record hrecord
    obtain ⟨i, hi⟩ := List.mem_iff_getElem?.1 hdelivery
    obtain ⟨made, hmade, hsettle⟩ := hcalls i delivery hi
    obtain ⟨other, -, hone⟩ := hsettled i delivery hi
    obtain ⟨read, hread, rfl⟩ := settle_eq_ok hsettle
    obtain rfl : read = record := Except.ok.inj (hread.symm.trans hrecord)
    by_contra hfilter
    rw [if_neg hfilter, hone] at hmade
    cases hmade
  · intro hpasses
    refine ⟨hlength, fun i delivery hi => ?_⟩
    obtain ⟨made, hmade, hsettle⟩ := hcalls i delivery hi
    obtain ⟨record, hrecord, rfl⟩ := settle_eq_ok hsettle
    refine ⟨record, hrecord, ?_⟩
    rw [hmade, if_pos (hpasses delivery (List.mem_of_getElem? hi) record hrecord), Nat.zero_add]

end Settlements

/-! ## What the server is left with -/

/-- What a call does to the subscription. -/
def Settlement.apply (entry : RecordedEvent) : Settlement → PersistentSubscription →
    PersistentSubscription
  | .ack => .ack entry
  | .park => .park entry
  | .retry => .retry entry

section Server
variable {strategy : KurrentDBOutboxStorageStrategy} {log : EventLog} {entry : RecordedEvent}
  {record : RecordedRaw} {s : PersistentSubscription}

/-- The calls of a context are what the server sees of it. -/
theorem publishContext_eq_calls (published : Bool) (s : PersistentSubscription) :
    strategy.publishContext entry published s =
      (publishContext strategy ⟨entry, some (s.retryCount entry.position)⟩ published).foldl
        (fun s call => call.2.apply entry s) s := by
  unfold KurrentDBOutboxStorageStrategy.publishContext publishContext
  split
  · rfl
  · dsimp only [Option.getD_some]
    split <;> rfl

/-- An entry that is left out stays pending, however often the outbox is run. -/
theorem pending_of_left_out (hnumbered : Numbered log.entries) (hentry : entry ∈ s.pending log)
    (hrecord : rawRecord entry = .ok record) (hfilter : strategy.filterer record.entry = false)
    (liveBufferCount limit : ℕ) (offers : List (ℤ × Bool)) :
    entry ∈ (strategy.outboxEntries liveBufferCount limit offers log s).2.pending log := by
  have heach : ∀ (offers : List (ℤ × Bool)) (s : PersistentSubscription), entry ∈ s.pending log →
      entry ∈ (strategy.publishEach log offers s).2.pending log := by
    intro offers
    induction offers with
    | nil => exact fun _ hentry => hentry
    | cons offer offers ih =>
      intro s hentry
      obtain ⟨position, published⟩ := offer
      unfold KurrentDBOutboxStorageStrategy.publishEach
      split
      · exact ih s hentry
      · rename_i offered hoffered
        split
        · exact hentry
        · rename_i other hother
          split
          · rename_i hpasses
            refine ih _ ?_
            have hmem := List.mem_of_find?_eq_some hoffered
            obtain ⟨hstart, hsettled⟩ := @publishContext_eq strategy offered published s
            obtain ⟨hshown, hfree⟩ := mem_pending.1 hentry
            refine mem_pending.2 ⟨hstart ▸ hshown, ?_⟩
            rcases hsettled with hsettled | hsettled
            · rwa [hsettled]
            · rw [hsettled, List.mem_cons, not_or]
              refine ⟨fun hsame => ?_, hfree⟩
              obtain rfl := eq_of_position hnumbered
                (List.mem_of_mem_filter (mem_pending.1 hmem).1)
                (List.mem_of_mem_filter hshown) hsame
              obtain rfl : record = other := Except.ok.inj (hrecord.symm.trans hother)
              rw [hfilter] at hpasses
              cases hpasses
          · exact ih s hentry
  unfold KurrentDBOutboxStorageStrategy.outboxEntries
  split
  · exact hentry
  · exact heach _ s hentry

end Server

section Example

/-- An order is delivered for the first time. -/
def placedOrder : List Delivery :=
  (Runs.run (callStep (stores fun _ => orderSerde)) {} [orderPlaced 1]).2.entries.map (⟨·, none⟩)

/-- The publisher of the order raises. -/
def failing : Publisher Unit := fun _ _ => false

theorem settled_once_iff_order :
    ∃ calls, run ⟨fun _ => true, 2⟩ orderSerde failing 1 100 placedOrder = .ok calls ∧
      SettledOnce ⟨fun _ => true, 2⟩ orderSerde failing 1 100 placedOrder calls := by
  have hrun : run ⟨fun _ => true, 2⟩ orderSerde failing 1 100 placedOrder =
      .ok [[(1, .retry)]] := by decide +kernel
  exact ⟨_, hrun, (settled_once_iff hrun).2 fun _ _ _ _ => rfl⟩

/-- An entry that the filter leaves out is read and not settled. -/
theorem left_out_unsettled :
    run ⟨fun _ => false, 2⟩ orderSerde failing 1 100 placedOrder = .ok [[]] ∧
      ¬ SettledOnce ⟨fun _ => false, 2⟩ orderSerde failing 1 100 placedOrder [[]] := by
  refine ⟨by decide +kernel, ?_⟩
  rintro ⟨-, hsettled⟩
  have hread : (read 1 100 placedOrder)[0]?.isSome = true := by decide +kernel
  obtain ⟨delivery, hdelivery⟩ := Option.isSome_iff_exists.1 hread
  obtain ⟨_, -, hone⟩ := hsettled 0 delivery hdelivery
  cases hone

end Example

end EventSourcery.Kurrent.KurrentSettlements
