import EventSourcery.KeyChanges

/-!
# Backends and their tenants

A backend makes its serde from its providers, with the keys of its own tenant. What a
tenant has stored is read in two ways: `load_stream` uses the serde of the backend in
tenant mode, the outbox and the subscriptions use the serde of the backend without a
tenant. Nothing between an append and a read is modelled but the change of the keys.
-/
namespace EventSourcery
open JsonText NestedDict EventRegistry Encryption InMemoryKeyStorage

/-- The providers that the serde of a backend is made of. -/
structure Backend (K : Type) where
  tenantId : TenantId := defaultTenant
  nameForType : EventType → Except SerdeError String
  typeForName : String → Except SerdeError EventType
  /-- The construction of an event from its data. -/
  build : EventType → Dict → Except SerdeError EventInstance
  strategy : EncryptionStrategy K
  /-- `key_storage.scoped_for_tenant` of the configured storage. -/
  scopedForTenant : TenantId → EncryptionKeyStorageStrategy K

namespace Backend
variable {K : Type} (backend : Backend K)

def inTenantMode (tenantId : TenantId) : Backend K := { backend with tenantId }

/-- `with_encryption`; the storage is known by its scopes. -/
def withEncryption (strategy : EncryptionStrategy K)
    (scopedForTenant : TenantId → EncryptionKeyStorageStrategy K) : Backend K :=
  { backend with strategy, scopedForTenant }

def encryption : Encryption K := ⟨backend.strategy, backend.scopedForTenant backend.tenantId⟩

def serde : Serde EventInstance :=
  backend.encryption.serde backend.nameForType backend.typeForName backend.build

/-- The type of the event is registered, and its dump builds it again. -/
def Knows (event : EventInstance) : Prop :=
  (∃ name, backend.nameForType event.type = .ok name ∧
    backend.typeForName name = .ok event.type) ∧
  backend.build event.type event.dump = .ok event

end Backend

theorem deserializeRecord_map {E : Type} (serde : Serde E) (record : RecordedRaw) :
    (serde.deserializeRecord record).map (·.wrappedEvent) = serde.deserialize record.entry := by
  unfold Serde.deserializeRecord
  cases serde.deserialize record.entry <;> rfl

section Read
variable {K : Type} {writer reader : Encryption K} {event : EventInstance} {streamId : StreamId}
  {call : ℕ} {fields : List (String × Encrypted)} {data raw : Dict}

/-- Another encryption reads back what one has encrypted, if and only if it reads back
every field. -/
theorem decryptFields_eq_data_iff (hstrategy : writer.strategy.Inverts)
    (happart : fields.Pairwise fun a b => Apart (parts a.1) (parts b.1))
    (hshown : SubjectsShown event streamId fields data)
    (hread : ∀ f ∈ fields, ∀ value, At (parts f.1) data value →
      loaded (.str (serialized value)) = value)
    (h : writer.encryptFields event streamId call fields data = .ok raw) :
    reader.decryptFields event.type streamId fields raw = .ok data ↔
      ∀ f ∈ fields, ∀ subjectId key value text,
        EncryptedAs writer event streamId f.1 data raw subjectId key value text →
          reader.decryptValue (.str text) subjectId f.2.maskValue = .ok value := by
  induction fields generalizing call raw with
  | nil =>
    simp only [encryptFields, Except.ok.injEq] at h
    simp [decryptFields, h]
  | cons head fields ih =>
    obtain ⟨field, config⟩ := head
    obtain ⟨hhead, htail⟩ := List.pairwise_cons.1 happart
    obtain ⟨subjectId, value, rest, hsubject, hheld, hrest, hdecrypt⟩ :=
      encryptFields_cons hstrategy hhead h
    have hresolved := decryptSubject_of_clear hshown.1 hsubject h
    have hshown' := hshown.2 value hheld
    rw [hread _ List.mem_cons_self value hheld, put_self hheld] at hrest hshown'
    obtain ⟨_, stored, read, -, hstored, -, rfl⟩ := decryptField_eq_ok.1 (hdecrypt hresolved)
    obtain rfl : read = value := (at_put hstored).unique
      ((at_encryptFields_of_apart (fun f hf => (hhead f hf).symm) hrest).2 hheld)
    have htails := ih htail hshown' (fun f hf => hread f (List.mem_cons_of_mem _ hf)) hrest
    obtain ⟨subjectId', key, value, text, hfield⟩ :=
      encryptedAs_of_encryptFields happart h _ List.mem_cons_self
    obtain rfl : subjectId' = subjectId := Except.ok.inj (hfield.subject.symm.trans hsubject)
    obtain rfl : value = read := hfield.held.unique hheld
    constructor
    · intro hfinal
      obtain ⟨next, hnext, hfinal⟩ := bind_eq_ok.1 hfinal
      obtain ⟨other, old, result, hother, hat, hresult, rfl⟩ := decryptField_eq_ok.1 hnext
      obtain rfl : other = subjectId' := Except.ok.inj (hother.symm.trans hresolved)
      obtain rfl := hat.unique hfield.stored
      obtain rfl : value = result := hheld.unique
        ((at_decryptFields_of_apart (fun f hf => (hhead f hf).symm) hfinal).2 (at_put hat))
      intro f hf u k v s hsame
      rcases List.mem_cons.1 hf with rfl | hf
      · obtain rfl : other = u := Except.ok.inj (hfield.subject.symm.trans hsame.subject)
        obtain rfl := hfield.held.unique hsame.held
        obtain rfl := Json.str.inj (hfield.stored.unique hsame.stored)
        exact hresult
      · exact htails.1 hfinal f hf u k v s ((encryptedAs_put hat (hhead f hf)).2 hsame)
    · intro hall
      have hresult := hall _ List.mem_cons_self _ _ _ _ hfield
      refine bind_eq_ok.2 ⟨_, decryptField_eq_ok.2 ⟨subjectId', .str text, value, hresolved,
        hfield.stored, hresult, rfl⟩, htails.2 fun f hf u k v s hsame => ?_⟩
      exact hall f (List.mem_cons_of_mem _ hf) u k v s
        ((encryptedAs_put hstored (hhead f hf)).1 hsame)

theorem decrypt_eq_dump_iff (hstrategy : writer.strategy.Inverts)
    (hshown : SubjectsShown event streamId (encryptedFields event.type) event.dump)
    (hrecoverable : Recoverable event) (h : writer.encrypt event streamId = .ok raw) :
    reader.decrypt event.type raw streamId = .ok event.dump ↔
      ∀ f ∈ encryptedFields event.type, ∀ subjectId key value text,
        EncryptedAs writer event streamId f.1 event.dump raw subjectId key value text →
          reader.decryptValue (.str text) subjectId f.2.maskValue = .ok value := by
  obtain ⟨hundotted, hfields⟩ := encrypt_eq_ok.1 h
  have hraw : Undotted raw := undotted_of_keys (keys_encryptFields hfields) hundotted
  have hread := (recoverable_iff hundotted (at_of_encrypt h).2).1 hrecoverable
  rw [decrypt_eq_ok, and_iff_right hraw]
  exact decryptFields_eq_data_iff hstrategy (apart_encryptedFields event.type) hshown hread hfields

/-- A field is read back with the key that it was encrypted with. -/
theorem EncryptedAs.read {field : String} {subjectId : Subject} {key : K} {value mask : Json}
    {text : String}
    (h : EncryptedAs writer event streamId field data raw subjectId key value text)
    (hstrategy : writer.strategy.Inverts) (hreader : reader.strategy = writer.strategy)
    (hkey : reader.keyStorage.get subjectId = .ok (some key))
    (hread : loaded (.str (serialized value)) = value) :
    reader.decryptValue (.str text) subjectId mask = .ok value := by
  rw [decryptValue_of_key hkey, hreader, h.decrypt hstrategy]
  exact congrArg Except.ok hread

end Read

section Delivery
variable {K : Type} {storage later : TenantId → EncryptionKeyStorageStrategy K} {t : TenantId}
  {event : WrappedEvent EventInstance} {streamId : StreamId}

/-- What is left of a tenant's event in the scope without a tenant: for every field the key
that it was encrypted with, or no key where the field holds its mask anyway. -/
def SharedKeys (storage later : TenantId → EncryptionKeyStorageStrategy K) (t : TenantId)
    (event : EventInstance) (streamId : StreamId) : Prop :=
  ∀ f ∈ encryptedFields event.type, ∀ subjectId key,
    encryptSubject event streamId f.1 = .ok subjectId →
    (storage t).get subjectId = .ok (some key) →
      (later defaultTenant).get subjectId = .ok (some key) ∨
        (later defaultTenant).get subjectId = .ok none ∧
          At (parts f.1) event.dump f.2.maskValue

/-- A serialized event is loaded where its data is decrypted to the dump. -/
theorem deserialize_of_decrypt {writer : Backend K} (reader : Backend K) {raw : RawEvent}
    (hknows : writer.Knows event.event)
    (htypes : reader.typeForName = writer.typeForName ∧ reader.build = writer.build)
    (h : writer.serde.serialize streamId event = .ok raw) :
    writer.encryption.encrypt event.event streamId = .ok raw.data ∧
      (reader.encryption.decrypt event.event.type raw.data streamId = .ok event.event.dump →
        reader.serde.deserialize raw = .ok event) := by
  obtain ⟨⟨name, hname, htype⟩, hbuild⟩ := hknows
  obtain ⟨name', hname', h⟩ := bind_eq_ok.1 h
  obtain ⟨data, hdata, h⟩ := bind_eq_ok.1 h
  obtain rfl : name = name' := Except.ok.inj (hname.symm.trans hname')
  cases h
  refine ⟨hdata, fun hdecrypt => ?_⟩
  simp only [Backend.serde, Serde.deserialize, Encryption.serde, htypes, htype, hdecrypt, hbuild,
    bind, Except.bind, pure, Except.pure]

/-- A storage reads the event, with the keys that it was encrypted with, or with none for a
field that holds its mask. -/
theorem decrypt_of_fitting {strategy : EncryptionStrategy K} (hstrategy : strategy.Inverts)
    {keyStorage : EncryptionKeyStorageStrategy K}
    (hfitting : ∀ f ∈ encryptedFields event.event.type, ∀ subjectId key,
      encryptSubject event.event streamId f.1 = .ok subjectId →
      (storage t).get subjectId = .ok (some key) →
        keyStorage.get subjectId = .ok (some key) ∨
          keyStorage.get subjectId = .ok none ∧ At (parts f.1) event.event.dump f.2.maskValue)
    (hshown : SubjectsShown event.event streamId (encryptedFields event.event.type)
      event.event.dump)
    (hrecoverable : Recoverable event.event) {raw : Dict}
    (h : (Encryption.mk strategy (storage t)).encrypt event.event streamId = .ok raw) :
    (Encryption.mk strategy keyStorage).decrypt event.event.type raw streamId =
      .ok event.event.dump := by
  have hread := (recoverable_iff hrecoverable.undotted (at_of_encrypt h).2).1 hrecoverable
  rw [decrypt_eq_dump_iff hstrategy hshown hrecoverable h]
  intro f hf subjectId key value text hfield
  rcases hfitting f hf subjectId key hfield.subject hfield.keyed with hkey | ⟨hnone, hmask⟩
  · exact hfield.read hstrategy rfl hkey (hread f hf value hfield.held)
  · rw [decryptValue_of_none hnone, hmask.unique hfield.held]

/-- So does the tenant that holds the keys. -/
theorem decrypt_of_keys {strategy : EncryptionStrategy K} (hstrategy : strategy.Inverts)
    (hkeys : ∀ f ∈ encryptedFields event.event.type, ∃ subjectId key,
      encryptSubject event.event streamId f.1 = .ok subjectId ∧
        (storage t).get subjectId = .ok (some key) ∧ (later t).get subjectId = .ok (some key))
    (hshown : SubjectsShown event.event streamId (encryptedFields event.event.type)
      event.event.dump)
    (hrecoverable : Recoverable event.event) {raw : Dict}
    (h : (Encryption.mk strategy (storage t)).encrypt event.event streamId = .ok raw) :
    (Encryption.mk strategy (later t)).decrypt event.event.type raw streamId =
      .ok event.event.dump := by
  refine decrypt_of_fitting hstrategy (fun f hf subjectId key hsubject hkey => .inl ?_) hshown
    hrecoverable h
  obtain ⟨subjectId', key', hsubject', hkey', hlater⟩ := hkeys f hf
  obtain rfl : subjectId' = subjectId := Except.ok.inj (hsubject'.symm.trans hsubject)
  obtain rfl : key' = key := Option.some.inj (Except.ok.inj (hkey'.symm.trans hkey))
  exact hlater

/-- A backend of one event: it builds nothing else. -/
def Backend.only (event : EventInstance) (strategy : EncryptionStrategy K)
    (scopedForTenant : TenantId → EncryptionKeyStorageStrategy K) : Backend K where
  nameForType _ := .ok ""
  typeForName _ := .ok event.type
  build _ data := if data = event.dump then .ok event else .error .validationError
  strategy := strategy
  scopedForTenant := scopedForTenant

theorem Backend.only_knows (event : EventInstance) (strategy : EncryptionStrategy K)
    (storage : TenantId → EncryptionKeyStorageStrategy K) (t : TenantId) :
    ((Backend.only event strategy storage).inTenantMode t).Knows event :=
  ⟨⟨"", rfl, rfl⟩, if_pos rfl⟩

theorem Backend.only_serialize {strategy : EncryptionStrategy K} {data : Dict}
    (h : (Encryption.mk strategy (storage t)).encrypt event.event streamId = .ok data) :
    ((Backend.only event.event strategy storage).inTenantMode t).serde.serialize streamId event =
      .ok { uuid := event.uuid, streamId, createdAt := event.createdAt, name := "", data
            context := event.context, version := event.version } := by
  have hencrypt : ((Backend.only event.event strategy storage).inTenantMode t).encryption.encrypt
      event.event streamId = .ok data := h
  simp only [Backend.serde, Serde.serialize, Encryption.serde, bind, Except.bind, pure,
    Except.pure, hencrypt]
  rfl

/-- It delivers the event only from its own dump. -/
theorem Backend.only_deserialize {strategy : EncryptionStrategy K} {raw : RawEvent}
    (h : (Backend.only event.event strategy later).serde.deserialize raw = .ok event) :
    (Encryption.mk strategy (later defaultTenant)).decrypt event.event.type raw.data
      raw.streamId = .ok event.event.dump := by
  obtain ⟨built, hbuilt, -⟩ := bind_eq_ok.1 h
  obtain ⟨read, hdecrypt, hbuild⟩ := bind_eq_ok.1 hbuilt
  obtain rfl : read = event.event.dump := by
    by_contra hne
    simp [Backend.only, hne] at hbuild
  exact hdecrypt

/-- Where a backend without a tenant delivers an event sealed with the key of a field, it has
that key, or none for a field that holds its mask. -/
theorem shared_of_delivered [DecidableEq K] {key : K}
    (hkeys : ∀ f ∈ encryptedFields event.event.type, ∃ subjectId key,
      encryptSubject event.event streamId f.1 = .ok subjectId ∧
        (storage t).get subjectId = .ok (some key) ∧ (later t).get subjectId = .ok (some key))
    (hshown : SubjectsShown event.event streamId (encryptedFields event.event.type)
      event.event.dump)
    (hrecoverable : Recoverable event.event)
    (hdelivered : ∀ raw,
      ((Backend.only event.event (sealing key) storage).inTenantMode t).serde.serialize streamId
          event = .ok raw →
        (Backend.only event.event (sealing key) later).serde.deserialize raw =
          ((Backend.only event.event (sealing key) later).inTenantMode t).serde.deserialize raw)
    {f : String × Encrypted} (hf : f ∈ encryptedFields event.event.type) {subjectId : Subject}
    (hsubject : encryptSubject event.event streamId f.1 = .ok subjectId)
    (hkey : (storage t).get subjectId = .ok (some key)) :
    (later defaultTenant).get subjectId = .ok (some key) ∨
      (later defaultTenant).get subjectId = .ok none ∧
        At (parts f.1) event.event.dump f.2.maskValue := by
  have happart := apart_encryptedFields event.event.type
  have hstrategy := sealing_inverts key
  have hheld : (Encryption.mk (sealing key) (storage t)).HasKeys event.event streamId
      (encryptedFields event.event.type) := fun f hf =>
    (hkeys f hf).imp fun u => Exists.imp fun k h => ⟨h.1, h.2.1⟩
  obtain ⟨data, hdata, -⟩ := decryptFields_encryptFields 0 hstrategy happart hheld fun f hf =>
    (hrecoverable.fields f hf).imp fun value h => getPath_eq_ok.1 h.1
  have hencrypt : (Encryption.mk (sealing key) (storage t)).encrypt event.event streamId =
      .ok data := encrypt_eq_ok.2 ⟨hrecoverable.undotted, hdata⟩
  have hserialize := Backend.only_serialize hencrypt
  have hloaded := (deserialize_of_decrypt
    ((Backend.only event.event (sealing key) later).inTenantMode t)
    (Backend.only_knows event.event (sealing key) storage t) ⟨rfl, rfl⟩ hserialize).2
    (decrypt_of_keys hstrategy hkeys hshown hrecoverable hencrypt)
  have hdecrypt := Backend.only_deserialize ((hdelivered _ hserialize).trans hloaded)
  obtain ⟨subjectId', key', value, text, hfield⟩ := encryptedAs_of_encryptFields happart hdata f hf
  obtain rfl : subjectId' = subjectId := Except.ok.inj (hfield.subject.symm.trans hsubject)
  obtain rfl : key' = key := Option.some.inj (Except.ok.inj (hfield.keyed.symm.trans hkey))
  have hvalue := (decrypt_eq_dump_iff hstrategy hshown hrecoverable hencrypt).1 hdecrypt f hf _ _
    _ _ hfield
  rcases hfield.key_of_sealing hvalue with ⟨hget, -⟩ | ⟨hnone, hmask⟩
  · exact .inl hget
  · exact .inr ⟨hnone, hmask ▸ hfield.held⟩

/-- Whatever the strategy and the types' own checks: the backend without a tenant delivers a
tenant's event as the tenant loads it, if and only if it has the keys. -/
theorem delivered_as_loaded_iff [DecidableEq K]
    (hkeys : ∀ f ∈ encryptedFields event.event.type, ∃ subjectId key,
      encryptSubject event.event streamId f.1 = .ok subjectId ∧
        (storage t).get subjectId = .ok (some key) ∧ (later t).get subjectId = .ok (some key))
    (hshown : SubjectsShown event.event streamId (encryptedFields event.event.type)
      event.event.dump)
    (hrecoverable : Recoverable event.event) :
    (∀ backend : Backend K, backend.tenantId = defaultTenant → backend.Knows event.event →
      ∀ strategy : EncryptionStrategy K, strategy.Inverts → ∀ raw position,
        ((backend.withEncryption strategy storage).inTenantMode t).serde.serialize streamId event =
            .ok raw →
          ((backend.withEncryption strategy later).serde.deserializeRecord
              { entry := raw, position, tenantId := t }).map (·.wrappedEvent) =
            ((backend.withEncryption strategy later).inTenantMode t).serde.deserialize raw) ↔
      SharedKeys storage later t event.event streamId := by
  constructor
  · intro hprop f hf subjectId key hsubject hkey
    refine shared_of_delivered hkeys hshown hrecoverable (fun raw h => ?_) hf hsubject hkey
    have hequal := hprop (.only event.event (sealing key) storage) rfl
      (Backend.only_knows event.event (sealing key) storage t) (sealing key) (sealing_inverts key)
      raw 0 h
    rw [deserializeRecord_map] at hequal
    exact hequal
  · rintro hshared backend htenant hknows strategy hstrategy raw position h
    have hknown : ((backend.withEncryption strategy storage).inTenantMode t).Knows event.event :=
      hknows
    obtain ⟨hencrypt, hdelivered⟩ := deserialize_of_decrypt
      (backend.withEncryption strategy later) hknown ⟨rfl, rfl⟩ h
    obtain ⟨-, hloaded⟩ := deserialize_of_decrypt
      ((backend.withEncryption strategy later).inTenantMode t) hknown ⟨rfl, rfl⟩ h
    have hscope : (backend.withEncryption strategy later).encryption =
        ⟨strategy, later defaultTenant⟩ := by
      simp only [Backend.encryption, Backend.withEncryption, htenant]
    rw [deserializeRecord_map,
      hloaded (decrypt_of_keys hstrategy hkeys hshown hrecoverable hencrypt)]
    apply hdelivered
    rw [hscope]
    exact decrypt_of_fitting hstrategy hshared hshown hrecoverable hencrypt

end Delivery

section Example

/-- The key of Ann in the tenant "a". -/
def tenantsKeys : TenantId → EncryptionKeyStorageStrategy String :=
  scopedForTenant idText fun i => if i = ("a", "Ann") then some "key-" else none

def orderOf (note : String) (total : ℤ) : EventInstance :=
  { orderWith note with
    dump := [("customer", .str "Ann"), ("note", .str note),
      ("bill", .obj [("total", .int total), ("currency", .str "EUR")])]
    wellFormed := by simp [WellFormed, WellFormedFields] }

/-- A backend of Ann's orders. -/
def annsBackend : Backend String where
  nameForType _ := .ok "Order"
  typeForName _ := .ok orderType
  build _ data :=
    match data with
    | [_, ("note", .str note), ("bill", .obj [("total", .int total), _])] =>
        .ok (orderOf note total)
    | _ => .error .validationError
  strategy := backwards
  scopedForTenant := tenantsKeys

def fragileOrder : WrappedEvent EventInstance :=
  .wrap (orderWith "fragile") 7 0 (some 1)

theorem orderWith_shown : SubjectsShown (orderWith "fragile") { uuid := 1 }
    (encryptedFields orderType) (orderWith "fragile").dump := by
  refine ⟨?_, fun value hvalue => ⟨?_, fun _ _ => trivial⟩⟩
  · intro subjectField hsubject
    obtain rfl := Option.some.inj hsubject
    exact ⟨orderWith_plain _ List.mem_cons_self _ rfl, rfl⟩
  · intro subjectField hsubject
    obtain rfl := Option.some.inj hsubject
    refine ⟨fun f hf => orderWith_plain _ List.mem_cons_self _ rfl f (List.mem_cons_of_mem _ hf),
      rfl⟩

theorem orderWith_recoverable : Recoverable (orderWith "fragile") := by
  refine ⟨by decide, fun f hf => ?_⟩
  obtain rfl | rfl := List.mem_pair.1 hf
  · refine ⟨.str "fragile", rfl, fun s hs => ?_⟩
    obtain rfl := Json.str.inj hs
    rfl
  · exact ⟨.int 42, rfl, fun s hs => by cases hs⟩

theorem delivered_as_loaded_iff_ann :
    (∀ backend : Backend String, backend.tenantId = defaultTenant →
      backend.Knows fragileOrder.event →
      ∀ strategy : EncryptionStrategy String, strategy.Inverts → ∀ raw position,
        ((backend.withEncryption strategy tenantsKeys).inTenantMode "a").serde.serialize
            { uuid := 1 } fragileOrder = .ok raw →
          ((backend.withEncryption strategy tenantsKeys).serde.deserializeRecord
              { entry := raw, position, tenantId := "a" }).map (·.wrappedEvent) =
            ((backend.withEncryption strategy tenantsKeys).inTenantMode "a").serde.deserialize
              raw) ↔
      SharedKeys tenantsKeys tenantsKeys "a" (orderWith "fragile") { uuid := 1 } := by
  refine delivered_as_loaded_iff (fun f hf => ?_) orderWith_shown orderWith_recoverable
  obtain rfl | rfl := List.mem_pair.1 hf
  all_goals exact ⟨_, "key-", rfl, rfl, rfl⟩

/-- Tenant "a" loads its order; the outbox delivers it masked. -/
theorem delivered_masked :
    backwards.Inverts ∧ annsBackend.Knows fragileOrder.event ∧
      ∃ raw, (annsBackend.inTenantMode "a").serde.serialize { uuid := 1 } fragileOrder = .ok raw ∧
        (annsBackend.inTenantMode "a").serde.deserialize raw = .ok fragileOrder ∧
        (annsBackend.serde.deserializeRecord { entry := raw, position := 0, tenantId := "a" }).map
            (·.wrappedEvent) = .ok { fragileOrder with event := orderOf "[REDACTED]" 0 } ∧
        orderOf "[REDACTED]" 0 ≠ fragileOrder.event := by
  refine ⟨backwards_inverts, ⟨⟨"Order", rfl, rfl⟩, rfl⟩, _, rfl, rfl, rfl, fun hequal => ?_⟩
  have hdump := congrArg EventInstance.dump hequal
  simp [orderOf, fragileOrder, WrappedEvent.wrap, orderWith] at hdump

end Example

end EventSourcery
