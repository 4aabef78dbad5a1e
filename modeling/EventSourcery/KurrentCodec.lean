import EventSourcery.KurrentNames

/-!
# Entries of KurrentDB streams

`dto.new_entry` writes an event's context, members of its own behind the prefix `$es-`, and
`created_at` into one JSON object, and `dto.raw_event` and `dto.snapshot` take them apart again.
The bytes of an entry are the characters of the JSON text, which are all ASCII.
-/
namespace EventSourcery.Kurrent
open JsonText (Json lookup loads dumps WellFormed WellFormedFields)
open Texts

inductive CodecError where
  | typeError
  | keyError
  | valueError
  | name (error : Error)
  deriving DecidableEq

/-- `kurrentdbclient.NewEvent` -/
structure NewEvent where
  id : Uuid
  type : String
  data : List Char
  metadata : List Char
  deriving DecidableEq

/-- `kurrentdbclient.RecordedEvent` -/
structure RecordedEvent extends NewEvent where
  streamName : String
  streamPosition : ℕ
  commitPosition : Option ℕ
  deriving DecidableEq

/-- A new entry as the server records it. -/
def NewEvent.recorded (entry : NewEvent) (streamName : String) (streamPosition : ℕ)
    (commitPosition : Option ℕ) : RecordedEvent :=
  { entry with streamName, streamPosition, commitPosition }

/-- `stream.Position.as_version` -/
def asVersion (position : Position) : ℤ := position + 1

def esPrefix : String := "$es-"

/-- `key.startswith(ES_PREFIX)` -/
def reserved (key : String) : Bool := esPrefix.toList.isPrefixOf key.toList

/-- `dict(**fields, **more)`, which raises when a key is given twice. -/
def keywords (fields more : Dict) : Except CodecError Dict :=
  if more.any fun f => (fields.map Prod.fst).contains f.1 then .error .typeError
  else .ok (fields ++ more)

/-- The members that carry the prefix. -/
def prefixed (metadata : Dict) : Dict := metadata.map fun f => (esPrefix ++ f.1, f.2)

def newEntry (fromRaw : RawEvent) (metadata : Dict) : Except CodecError NewEvent := do
  let fields ← keywords fromRaw.context (prefixed metadata)
  let fields ← keywords fields [("created_at", .str (isoformat fromRaw.createdAt))]
  return { id := fromRaw.uuid, type := fromRaw.name, data := dumps (.obj fromRaw.data)
           metadata := dumps (.obj fields) }

/-- The entry that `save_snapshot` makes; `None` has no position. -/
def snapshotEntry (snapshot : RawEvent) : Except CodecError NewEvent :=
  match snapshot.version with
  | none => .error .typeError
  | some version => newEntry snapshot [("stream_position", .int (fromVersion version))]

/-- `json.loads` of a text that must be an object; no other is ever written. -/
def loadsDict (text : List Char) : Except CodecError Dict :=
  match loads text with
  | none => .error .valueError
  | some (.obj fields) => .ok fields
  | some _ => .error .typeError

/-- `datetime.fromisoformat(metadata.pop("created_at"))`, with what is left. -/
def popCreatedAt (metadata : Dict) : Except CodecError (Timestamp × Dict) :=
  match lookup "created_at" metadata with
  | none => .error .keyError
  | some (.str text) =>
      (fromisoformat text).elim (.error .valueError) fun createdAt =>
        .ok (createdAt, metadata.filter (·.1 ≠ "created_at"))
  | some _ => .error .typeError

/-- Without a version, it is that of the entry's position. -/
def rawEvent (fromEntry : RecordedEvent) (version : Option ℤ) : Except CodecError RawEvent := do
  let metadata ← loadsDict fromEntry.metadata
  let (createdAt, metadata) ← popCreatedAt metadata
  let name ← (Name.fromStreamName fromEntry.streamName).mapError .name
  let data ← loadsDict fromEntry.data
  return { uuid := fromEntry.id, streamId := name.uuid, createdAt
           version := some (version.getD (asVersion fromEntry.streamPosition))
           name := fromEntry.type, data
           context := metadata.filter fun f => !reserved f.1 }

def snapshot (fromEntry : RecordedEvent) : Except CodecError RawEvent := do
  let metadata ← loadsDict fromEntry.metadata
  match lookup (esPrefix ++ "stream_position") metadata with
  | none => .error .keyError
  | some (.int position) => rawEvent fromEntry (some (asVersion position))
  | some _ => .error .typeError

def rawRecord (fromEntry : RecordedEvent) : Except CodecError RecordedRaw := do
  let streamName ← (Name.fromStreamName fromEntry.streamName).mapError .name
  let entry ← rawEvent fromEntry none
  return { entry, position := (fromEntry.commitPosition.getD 0 : ℕ)
           tenantId := streamName.tenantId }

/-- The keys of a context that are told from the library's own. -/
def Unreserved (context : Dict) : Prop :=
  ∀ key ∈ context.map Prod.fst, key ≠ "created_at" ∧ reserved key = false

instance (context : Dict) : Decidable (Unreserved context) :=
  inferInstanceAs (Decidable (∀ key ∈ context.map Prod.fst, _))

/-- What comes back of an event. -/
def Same (decoded raw : RawEvent) : Prop :=
  decoded.uuid = raw.uuid ∧ decoded.name = raw.name ∧ decoded.data = raw.data ∧
    decoded.context = raw.context ∧ decoded.createdAt = raw.createdAt

section Writing
variable {fields more metadata : Dict} {raw : RawEvent}

theorem keywords_eq_ok {all : Dict} : keywords fields more = .ok all ↔
    (∀ key ∈ more.map Prod.fst, key ∉ fields.map Prod.fst) ∧ all = fields ++ more := by
  unfold keywords
  split
  · rename_i htwice
    obtain ⟨f, hf, hmem⟩ := List.any_eq_true.1 htwice
    constructor
    · intro h
      cases h
    · rintro ⟨hfree, -⟩
      exact absurd (by simpa using hmem) (hfree f.1 (List.mem_map_of_mem hf))
  · rename_i honce
    have hfree : ∀ key ∈ more.map Prod.fst, key ∉ fields.map Prod.fst := by
      intro key hkey hmem
      obtain ⟨f, hf, rfl⟩ := List.mem_map.1 hkey
      exact honce (List.any_eq_true.2 ⟨f, hf, by simpa using hmem⟩)
    constructor
    · intro h
      exact ⟨hfree, (Except.ok.inj h).symm⟩
    · rintro ⟨-, rfl⟩
      rfl

theorem reserved_prefixed : ∀ f ∈ prefixed metadata, reserved f.1 = true := by
  intro f hf
  obtain ⟨g, -, rfl⟩ := List.mem_map.1 hf
  simp [reserved]

theorem createdAt_not_prefixed : "created_at" ∉ (prefixed metadata).map Prod.fst := by
  intro hmem
  obtain ⟨f, hf, hname⟩ := List.mem_map.1 hmem
  have hreserved := reserved_prefixed f hf
  rw [hname] at hreserved
  exact absurd hreserved (by decide)

/-- All members of an entry's metadata. -/
def members (raw : RawEvent) (metadata : Dict) : Dict :=
  raw.context ++ prefixed metadata ++ [("created_at", .str (isoformat raw.createdAt))]

/-- An entry is made when no key of the context is given twice. -/
theorem newEntry_eq_ok {entry : NewEvent} : newEntry raw metadata = .ok entry ↔
    ("created_at" ∉ raw.context.map Prod.fst ∧
      ∀ f ∈ prefixed metadata, f.1 ∉ raw.context.map Prod.fst) ∧
    entry = { id := raw.uuid, type := raw.name, data := dumps (.obj raw.data)
              metadata := dumps (.obj (members raw metadata)) } := by
  constructor
  · intro h
    obtain ⟨fields, hfields, h⟩ := bind_eq_ok.1 h
    obtain ⟨all, hall, h⟩ := bind_eq_ok.1 h
    obtain ⟨hfree, rfl⟩ := keywords_eq_ok.1 hfields
    obtain ⟨htime, rfl⟩ := keywords_eq_ok.1 hall
    cases h
    have hcreated := htime "created_at" (by simp)
    rw [List.map_append, List.mem_append, not_or] at hcreated
    exact ⟨⟨hcreated.1, fun f hf => hfree f.1 (List.mem_map_of_mem hf)⟩, rfl⟩
  · rintro ⟨⟨hcreated, hfree⟩, rfl⟩
    have hfields : keywords raw.context (prefixed metadata) =
        .ok (raw.context ++ prefixed metadata) := by
      refine keywords_eq_ok.2 ⟨fun key hkey => ?_, rfl⟩
      obtain ⟨f, hf, rfl⟩ := List.mem_map.1 hkey
      exact hfree f hf
    have hall : keywords (raw.context ++ prefixed metadata)
        [("created_at", .str (isoformat raw.createdAt))] = .ok (members raw metadata) := by
      refine keywords_eq_ok.2 ⟨fun key hkey => ?_, rfl⟩
      rw [List.mem_singleton.1 hkey, List.map_append, List.mem_append, not_or]
      exact ⟨hcreated, createdAt_not_prefixed⟩
    exact bind_eq_ok.2 ⟨_, hfields, bind_eq_ok.2 ⟨_, hall, rfl⟩⟩

end Writing

theorem wellFormedFields_append {fields more : Dict} (h : WellFormedFields fields)
    (hmore : WellFormedFields more) : WellFormedFields (fields ++ more) := by
  induction fields with
  | nil => exact hmore
  | cons f fields ih => exact ⟨h.1, ih h.2⟩

theorem lookup_append {key : String} {fields : Dict} (more : Dict)
    (h : key ∉ fields.map Prod.fst) : lookup key (fields ++ more) = lookup key more := by
  induction fields with
  | nil => rfl
  | cons f fields ih =>
    rw [List.map_cons, List.mem_cons, not_or] at h
    simp only [List.cons_append, lookup, if_neg (Ne.symm h.1), ih h.2]

section Reading
variable {raw : RawEvent} {metadata : Dict} {entry : NewEvent}

/-- Members of the library's own: distinct keys and values that JSON has. -/
structure Proper (metadata : Dict) : Prop where
  keys : (metadata.map Prod.fst).Nodup
  values : WellFormedFields (prefixed metadata)

theorem proper_nil : Proper [] := ⟨List.nodup_nil, trivial⟩

theorem proper_position (position : Position) :
    Proper [("stream_position", .int position)] := ⟨List.nodup_singleton _, trivial, trivial⟩

theorem members_nodup (hcontext : WellFormed (.obj raw.context)) (hmetadata : Proper metadata)
    (hentry : newEntry raw metadata = .ok entry) : WellFormed (.obj (members raw metadata)) := by
  obtain ⟨⟨hcreated, hfree⟩, -⟩ := newEntry_eq_ok.1 hentry
  have hkeys : ((prefixed metadata).map Prod.fst).Nodup := by
    have hmap : (prefixed metadata).map Prod.fst =
        (metadata.map Prod.fst).map (esPrefix ++ ·) := by
      simp [prefixed, Function.comp_def]
    rw [hmap]
    exact hmetadata.keys.map fun _ _ h => String.append_right_inj _ |>.1 h
  refine ⟨?_, wellFormedFields_append (wellFormedFields_append hcontext.2 hmetadata.values)
    ⟨trivial, trivial⟩⟩
  rw [members, List.map_append, List.map_append, List.nodup_append, List.nodup_append]
  refine ⟨⟨hcontext.1, hkeys, ?_⟩, List.nodup_singleton _, ?_⟩
  · intro key hkey other hother hsame
    obtain ⟨f, hf, rfl⟩ := List.mem_map.1 hother
    exact hfree f hf (hsame ▸ hkey)
  · intro key hkey other hother hsame
    rw [List.map_cons, List.map_nil, List.mem_singleton] at hother
    rw [hsame, hother] at hkey
    rcases List.mem_append.1 hkey with hkey | hkey
    · exact hcreated hkey
    · exact createdAt_not_prefixed hkey

theorem loadsDict_dumps {fields : Dict} (h : WellFormed (.obj fields)) :
    loadsDict (dumps (.obj fields)) = .ok fields := by
  rw [loadsDict, JsonText.loads_dumps h]

/-- What is left of the members without `created_at`. -/
theorem popCreatedAt_members (htime : InRange raw.createdAt)
    (hentry : newEntry raw metadata = .ok entry) :
    popCreatedAt (members raw metadata) =
      .ok (raw.createdAt, raw.context ++ prefixed metadata) := by
  obtain ⟨⟨hcreated, -⟩, -⟩ := newEntry_eq_ok.1 hentry
  have hfree : "created_at" ∉ (raw.context ++ prefixed metadata).map Prod.fst := by
    rw [List.map_append, List.mem_append, not_or]
    exact ⟨hcreated, createdAt_not_prefixed⟩
  have hlookup : lookup "created_at" (members raw metadata) =
      some (.str (isoformat raw.createdAt)) := by
    rw [members, lookup_append _ hfree]
    rfl
  have hrest : (members raw metadata).filter (·.1 ≠ "created_at") =
      raw.context ++ prefixed metadata := by
    rw [members, List.filter_append]
    have hkept : (raw.context ++ prefixed metadata).filter (·.1 ≠ "created_at") =
        raw.context ++ prefixed metadata := by
      refine List.filter_eq_self.2 fun f hf => ?_
      simp only [ne_eq, decide_not, Bool.not_eq_true', decide_eq_false_iff_not]
      exact fun hname => hfree (hname ▸ List.mem_map_of_mem hf)
    rw [hkept]
    simp
  rw [popCreatedAt, hlookup]
  simp only [fromisoformat_isoformat htime, Option.elim, hrest]

/-- What an event comes back as. -/
def reread (raw : RawEvent) (streamId : StreamId) (version : ℤ) : RawEvent :=
  { raw with
    streamId, version := some version, context := raw.context.filter fun f => !reserved f.1 }

/-- What is read of an entry that was written. -/
theorem rawEvent_recorded (hdata : WellFormed (.obj raw.data))
    (hcontext : WellFormed (.obj raw.context)) (htime : InRange raw.createdAt)
    (hmetadata : Proper metadata) (hentry : newEntry raw metadata = .ok entry)
    (recorded : RecordedEvent) (hrecorded : recorded.toNewEvent = entry) {name : Name}
    (hname : Name.fromStreamName recorded.streamName = .ok name) (version : Option ℤ) :
    rawEvent recorded version =
      .ok (reread raw name.uuid (version.getD (asVersion recorded.streamPosition))) := by
  have hmembers := members_nodup hcontext hmetadata hentry
  have hpopped := popCreatedAt_members htime hentry
  obtain ⟨-, rfl⟩ := newEntry_eq_ok.1 hentry
  have hown : (prefixed metadata).filter (fun f => !reserved f.1) = [] := by
    rw [List.filter_eq_nil_iff]
    intro f hf
    simp [reserved_prefixed f hf]
  unfold rawEvent
  simp only [hrecorded, loadsDict_dumps hmembers, loadsDict_dumps hdata, hpopped, hname,
    Except.mapError, List.filter_append, hown, List.append_nil, bind, Except.bind, pure,
    Except.pure, reread]

/-- A snapshot is read with the version that it was saved with. -/
theorem snapshot_recorded (hcontext : WellFormed (.obj raw.context)) {v : ℤ}
    (hentry : newEntry raw [("stream_position", .int (fromVersion v))] = .ok entry)
    (recorded : RecordedEvent) (hrecorded : recorded.toNewEvent = entry) :
    snapshot recorded = rawEvent recorded (some v) := by
  have hmembers := members_nodup hcontext (proper_position _) hentry
  obtain ⟨⟨-, hfree⟩, rfl⟩ := newEntry_eq_ok.1 hentry
  have hposition : lookup (esPrefix ++ "stream_position")
      (members raw [("stream_position", .int (fromVersion v))]) =
        some (.int (fromVersion v)) := by
    rw [members, List.append_assoc, lookup_append _ (hfree _ List.mem_cons_self)]
    rfl
  have hversion : asVersion (fromVersion v) = v := by
    unfold asVersion fromVersion
    omega
  unfold snapshot
  simp only [hrecorded, loadsDict_dumps hmembers, hposition, hversion, bind, Except.bind]

/-- Whether an entry can be read does not depend on the version. -/
theorem rawEvent_version {recorded : RecordedEvent} {version : Option ℤ} {decoded : RawEvent}
    (h : rawEvent recorded version = .ok decoded) (other : Option ℤ) :
    ∃ decoded', rawEvent recorded other = .ok decoded' := by
  obtain ⟨metadata, hmetadata, h⟩ := bind_eq_ok.1 h
  obtain ⟨⟨createdAt, rest⟩, hpopped, h⟩ := bind_eq_ok.1 h
  obtain ⟨name, hname, h⟩ := bind_eq_ok.1 h
  obtain ⟨data, hdata, -⟩ := bind_eq_ok.1 h
  exact ⟨_, bind_eq_ok.2 ⟨metadata, hmetadata, bind_eq_ok.2 ⟨(createdAt, rest), hpopped,
    bind_eq_ok.2 ⟨name, hname, bind_eq_ok.2 ⟨data, hdata, rfl⟩⟩⟩⟩⟩

theorem snapshot_eq_ok {recorded : RecordedEvent} {decoded : RawEvent}
    (h : snapshot recorded = .ok decoded) : ∃ v, rawEvent recorded (some v) = .ok decoded := by
  obtain ⟨metadata, -, h⟩ := bind_eq_ok.1 h
  split at h
  · cases h
  · exact ⟨_, h⟩
  · cases h

/-- A context is read as it was written when none of its keys is the library's. -/
theorem filter_context_iff {context : Dict} :
    (context.filter fun f => !reserved f.1) = context ↔
      ∀ key ∈ context.map Prod.fst, reserved key = false := by
  rw [List.filter_eq_self]
  simp

/-- An event that is written and read comes back when its context is told from the members of
the library. -/
theorem written_same_iff (raw : RawEvent) (metadata : Dict) (streamId : StreamId) (version : ℤ) :
    (∃ entry, newEntry raw metadata = .ok entry) ∧ Same (reread raw streamId version) raw ↔
      Unreserved raw.context := by
  constructor
  · rintro ⟨⟨entry, hentry⟩, -, -, -, hcontext, -⟩ key hkey
    obtain ⟨⟨hcreated, -⟩, -⟩ := newEntry_eq_ok.1 hentry
    exact ⟨fun h => hcreated (h ▸ hkey), filter_context_iff.1 hcontext key hkey⟩
  · intro hfree
    refine ⟨⟨_, newEntry_eq_ok.2 ⟨⟨fun hmem => (hfree _ hmem).1 rfl, fun f hf hmem => ?_⟩, rfl⟩⟩,
      rfl, rfl, rfl, filter_context_iff.2 fun key hkey => (hfree key hkey).2, rfl⟩
    have hreserved := reserved_prefixed f hf
    rw [(hfree _ hmem).2] at hreserved
    cases hreserved

/-- What is read of an entry that is written. -/
theorem exists_read_iff {ε ε' : Type} {write : Except ε NewEvent}
    {read : NewEvent → Except ε' RawEvent} {reread : RawEvent}
    (hread : ∀ entry, write = .ok entry → read entry = .ok reread) (P : RawEvent → Prop) :
    (∃ entry decoded, write = .ok entry ∧ read entry = .ok decoded ∧ P decoded) ↔
      (∃ entry, write = .ok entry) ∧ P reread := by
  constructor
  · rintro ⟨entry, decoded, hentry, hdecoded, h⟩
    rw [hread entry hentry] at hdecoded
    cases hdecoded
    exact ⟨⟨entry, hentry⟩, h⟩
  · rintro ⟨⟨entry, hentry⟩, h⟩
    exact ⟨entry, _, hentry, hread entry hentry, h⟩

end Reading

/-- An event comes back as it was written when no key of its context is `created_at` or has the
prefix, and so does a snapshot, with its version, if it has one. -/
theorem codec_roundTrips_iff {raw : RawEvent} (hdata : WellFormed (.obj raw.data))
    (hcontext : WellFormed (.obj raw.context)) (htime : InRange raw.createdAt) (name : Name)
    (position : ℕ) (commitPosition : Option ℕ) :
    ((∃ entry decoded, newEntry raw [] = .ok entry ∧
        rawEvent (entry.recorded name.text position commitPosition) none = .ok decoded ∧
          Same decoded raw) ↔ Unreserved raw.context) ∧
    ((∃ entry decoded, snapshotEntry raw = .ok entry ∧
        snapshot (entry.recorded name.snapshot position commitPosition) = .ok decoded ∧
          Same decoded raw ∧ decoded.version = raw.version) ↔
      raw.version ≠ none ∧ Unreserved raw.context) := by
  constructor
  · have hread : ∀ entry, newEntry raw [] = .ok entry →
        rawEvent (entry.recorded name.text position commitPosition) none =
          .ok (reread raw name.reread (asVersion position)) := fun entry hentry =>
      rawEvent_recorded hdata hcontext htime proper_nil hentry (entry.recorded name.text _ _) rfl
        (Name.fromStreamName_of name.withoutSuffix_text) none
    rw [exists_read_iff hread fun decoded => Same decoded raw, written_same_iff]
  · cases hversion : raw.version with
    | none => simp [snapshotEntry, hversion]
    | some v =>
      have hread : ∀ entry, snapshotEntry raw = .ok entry →
          snapshot (entry.recorded name.snapshot position commitPosition) =
            .ok (reread raw name.reread v) := by
        intro entry hentry
        rw [snapshotEntry, hversion] at hentry
        rw [snapshot_recorded hcontext hentry _ rfl]
        exact rawEvent_recorded hdata hcontext htime (proper_position _) hentry
          (entry.recorded name.snapshot _ _) rfl
          (Name.fromStreamName_of name.withoutSuffix_snapshot) (some v)
      have hwritten := written_same_iff raw [("stream_position", .int (fromVersion v))]
        name.reread v
      have hentries : snapshotEntry raw =
          newEntry raw [("stream_position", .int (fromVersion v))] := by
        simp only [snapshotEntry, hversion]
      rw [← hentries] at hwritten
      rw [exists_read_iff hread fun decoded => Same decoded raw ∧ decoded.version = some v,
        ← hwritten]
      constructor
      · rintro ⟨hentry, hsame, -⟩
        exact ⟨by simp, hentry, hsame⟩
      · rintro ⟨-, hentry, hsame⟩
        exact ⟨hentry, hsame, rfl⟩

section Example

/-- An event with an extra member in its context. -/
def taggedEvent (key : String) : RawEvent :=
  { uuid := 1, streamId := { uuid := 2 }, createdAt := 1700000000000000, name := "OrderPlaced"
    data := [("total", .int 3)], context := defaultContext ++ [(key, .str "127.0.0.1")]
    version := some 1 }

/-- The stream of the events, without a tenant and a category. -/
def orderName : Name := ⟨"", { uuid := 2 }, "--00000000000000000000000000000002", by decide⟩

theorem codec_roundTrips_iff_tagged :
    (∃ entry decoded, newEntry (taggedEvent "ip") [] = .ok entry ∧
      rawEvent (entry.recorded orderName.text 0 none) none = .ok decoded ∧
        Same decoded (taggedEvent "ip")) ∧
    (∃ entry decoded, snapshotEntry (taggedEvent "ip") = .ok entry ∧
      snapshot (entry.recorded orderName.snapshot 0 none) = .ok decoded ∧
        Same decoded (taggedEvent "ip") ∧ decoded.version = (taggedEvent "ip").version) := by
  have hiff := @codec_roundTrips_iff (taggedEvent "ip")
    (by simp [taggedEvent, WellFormed, WellFormedFields])
    (by simp [taggedEvent, defaultContext, WellFormed, WellFormedFields]) (by decide) orderName 0
    none
  exact ⟨hiff.1.2 (by decide), hiff.2.2 ⟨by decide, by decide⟩⟩

/-- A context with the key `created_at` is refused, and a member with the prefix is lost. -/
theorem codec_loses_context :
    newEntry (taggedEvent "created_at") [] = .error .typeError ∧
    (newEntry (taggedEvent "$es-ip") []).bind (fun entry =>
        rawEvent (entry.recorded orderName.text 0 none) none) =
      .ok { taggedEvent "$es-ip" with context := defaultContext } ∧
    (taggedEvent "$es-ip").context ≠ defaultContext := by
  refine ⟨by decide, ?_, by decide⟩
  obtain ⟨entry, hentry⟩ : ∃ entry, newEntry (taggedEvent "$es-ip") [] = .ok entry :=
    ⟨_, newEntry_eq_ok.2 ⟨⟨by decide, by decide⟩, rfl⟩⟩
  have hdata : WellFormed (.obj (taggedEvent "$es-ip").data) := by
    simp [taggedEvent, WellFormed, WellFormedFields]
  have hcontext : WellFormed (.obj (taggedEvent "$es-ip").context) := by
    simp [taggedEvent, defaultContext, WellFormed, WellFormedFields]
  have hread : rawEvent (entry.recorded orderName.text 0 none) none =
      .ok (reread (taggedEvent "$es-ip") orderName.reread 1) :=
    rawEvent_recorded hdata hcontext (by decide) proper_nil hentry
      (entry.recorded orderName.text _ _) rfl
      (Name.fromStreamName_of orderName.withoutSuffix_text) none
  have hlost : reread (taggedEvent "$es-ip") orderName.reread 1 =
      { taggedEvent "$es-ip" with context := defaultContext } := by decide
  rw [hentry, Except.bind, hread, hlost]

end Example

end EventSourcery.Kurrent
