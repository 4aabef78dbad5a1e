import EventSourcery.Shredding

/-!
# Keys that change after a shredding

Between encryption and decryption keys may be shredded and stored. A field whose
subject has no key is masked. Nothing ties what was encrypted to the key it was
encrypted with, so a new key for the subject brings the shredded fields back to
decryption, which fails or gives something else than the mask.
-/
namespace EventSourcery
open JsonText NestedDict EventRegistry Encryption Runs InMemoryKeyStorage

section Results
variable {K : Type} {encryption : Encryption K} {eventType : EventType} {streamId : StreamId}
  {fields : List (String × Encrypted)} {data final : Dict}

/-- What comes of a field of a stored dict. -/
def Encryption.Decrypts {K : Type} (encryption : Encryption K) (eventType : EventType)
    (streamId : StreamId) (data : Dict) (f : String × Encrypted) (result : Json) : Prop :=
  ∃ subjectId value, decryptSubject eventType streamId f.1 data = .ok subjectId ∧
    At (parts f.1) data value ∧
    encryption.decryptValue value subjectId f.2.maskValue = .ok result

theorem decrypts_put {f : String × Encrypted} {p : List String} {value written result : Json}
    (hat : At p data value) (happart : Apart p (parts f.1))
    (hsubject : ∀ subjectField, subjectFiled f.1 eventType = some subjectField →
      Apart p (parts subjectField)) :
    encryption.Decrypts eventType streamId (put p written data) f result ↔
      encryption.Decrypts eventType streamId data f result := by
  simp only [Decrypts, decryptSubject_put hat hsubject, at_put_of_apart happart hat]

/-- What comes of a field stands in its place. -/
theorem at_decryptFields (hplain : PlainSubjects eventType fields)
    (happart : fields.Pairwise fun a b => Apart (parts a.1) (parts b.1))
    (h : encryption.decryptFields eventType streamId fields data = .ok final) :
    ∀ f ∈ fields, ∃ result, encryption.Decrypts eventType streamId data f result ∧
      At (parts f.1) final result := by
  induction fields generalizing data with
  | nil => simp
  | cons head fields ih =>
    obtain ⟨field, config⟩ := head
    obtain ⟨hhead, htail⟩ := List.pairwise_cons.1 happart
    obtain ⟨next, hnext, h⟩ := bind_eq_ok.1 h
    obtain ⟨subjectId, value, result, hsubject, hat, hresult, rfl⟩ := decryptField_eq_ok.1 hnext
    intro f hf
    rcases List.mem_cons.1 hf with rfl | hf
    · exact ⟨result, ⟨subjectId, value, hsubject, hat, hresult⟩,
        (at_decryptFields_of_apart (fun f hf => (hhead f hf).symm) h).2 (at_put hat)⟩
    · obtain ⟨other, hother, hplace⟩ := ih hplain.tail htail h f hf
      refine ⟨other, (decrypts_put hat (hhead f hf) fun subjectField hfield => ?_).1 hother, hplace⟩
      exact (hplain f (List.mem_cons_of_mem _ hf) subjectField hfield (field, config)
        List.mem_cons_self).symm

end Results

section Permanent
theorem decryptValue_of_none {K : Type} {encryption : Encryption K} {value mask : Json}
    {subjectId : Subject} (h : encryption.keyStorage.get subjectId = .ok none) :
    encryption.decryptValue value subjectId mask = .ok mask := by
  simp only [decryptValue, h, bind, Except.bind]

theorem decryptValue_of_key {K : Type} {encryption : Encryption K} {value mask : Json}
    {subjectId : Subject} {key : K} (h : encryption.keyStorage.get subjectId = .ok (some key)) :
    encryption.decryptValue value subjectId mask =
      (encryption.strategy.decrypt value key).map loaded := by
  simp only [decryptValue, h, bind, Except.bind]

/-- The key that a field was encrypted with reads it back. -/
theorem EncryptedAs.decrypt {K : Type} {encryption : Encryption K} {event : EventInstance}
    {streamId : StreamId} {field : String} {data raw : Dict} {subjectId : Subject} {key : K}
    {value : Json} {text : String}
    (h : EncryptedAs encryption event streamId field data raw subjectId key value text)
    (hstrategy : encryption.strategy.Inverts) :
    encryption.strategy.decrypt (.str text) key = .ok (.str (serialized value)) := by
  obtain ⟨call, htext⟩ := h.sealed
  obtain ⟨_, hencrypt, hdecrypt⟩ := hstrategy call (serialized value) key
  obtain rfl : text = _ := Except.ok.inj (htext.symm.trans hencrypt)
  exact hdecrypt

/-- A write apart from a field leaves what encryption made of it. -/
theorem encryptedAs_put {K : Type} {writer : Encryption K} {event : EventInstance}
    {streamId : StreamId} {data raw : Dict} {field : String} {p : List String}
    {old written value : Json} {subjectId : Subject} {key : K} {text : String} (hat : At p raw old)
    (happart : Apart p (parts field)) :
    EncryptedAs writer event streamId field data (put p written raw) subjectId key value text ↔
      EncryptedAs writer event streamId field data raw subjectId key value text := by
  constructor
  · intro h
    exact ⟨h.subject, h.keyed, h.held, h.sealed, (at_put_of_apart happart hat).1 h.stored⟩
  · intro h
    exact ⟨h.subject, h.keyed, h.held, h.sealed, (at_put_of_apart happart hat).2 h.stored⟩

variable {κ K : Type} {hash : Subject → Except SerdeError κ} {table : KeyTable κ K} {t : TenantId}
  {event : EventInstance} {streamId : StreamId} {subjectId : Subject}

/-- A strategy that tells one key from all others: nothing that was encrypted with it
is decrypted with another one. -/
def sealing [DecidableEq K] (key : K) : EncryptionStrategy K where
  encrypt _ data k := .ok (String.ofList ((if k = key then 'a' else 'b') :: data.toList))
  decrypt value k :=
    match value with
    | .str text =>
        if text.toList.head? = some (if k = key then 'a' else 'b') then
          .ok (.str (String.ofList text.toList.tail))
        else .error (.raised "the key does not fit")
    | _ => .error .typeError

theorem sealing_inverts [DecidableEq K] (key : K) : (sealing key).Inverts := by
  intro call data k
  exact ⟨_, rfl, by simp [sealing]⟩

theorem sealing_decrypt_ok [DecidableEq K] {key k : K} {call : ℕ} {data text : String}
    {value : Json} (h : (sealing key).encrypt call data key = .ok text)
    (hdecrypt : (sealing key).decrypt (.str text) k = .ok value) : k = key := by
  obtain rfl := Except.ok.inj h
  by_contra hk
  simp [sealing, hk] at hdecrypt

/-- What may stand in an encrypted field while an event is decrypted: its mask, a text, or
what its value reads back as. -/
def MayHold (event : EventInstance) (f : String × Encrypted) (held : Json) : Prop :=
  held = f.2.maskValue ∨ (∃ text, held = .str text) ∨
    ∃ value, At (parts f.1) event.dump value ∧ held = loaded (.str (serialized value))

/-- What a stored event may become on the way to its decryption. -/
structure Underway (event : EventInstance) (data : Dict) : Prop where
  outside : ∀ p value, (∀ f ∈ encryptedFields event.type, Apart (parts f.1) p) →
    (At p data value ↔ At p event.dump value)
  held : ∀ f ∈ encryptedFields event.type, ∃ held, At (parts f.1) data held ∧ MayHold event f held

/-- What the keys may be when an event is decrypted after a subject was shredded: of the
subjects that decryption may resolve for a field, none has another key than the one that the
field was encrypted with, nor any if the field is the subject's, unless it reads as its mask. -/
def KeysFit (hash : Subject → Except SerdeError κ) (table later : KeyTable κ K) (t : TenantId)
    (subjectId : Subject) (event : EventInstance) (streamId : StreamId) : Prop :=
  ∀ data, Underway event data → ∀ f ∈ encryptedFields event.type, ∃ resolved held,
    decryptSubject event.type streamId f.1 data = .ok resolved ∧
      get hash later t resolved = .ok held ∧
      ∀ key, held = some key → ∃ u, encryptSubject event streamId f.1 = .ok u ∧
        get hash table t u = .ok (some key) ∧
        (SameId hash subjectId u → ∀ value, At (parts f.1) event.dump value →
          loaded (.str (serialized value)) = f.2.maskValue)

theorem Underway.put {data : Dict} (h : Underway event data) {f : String × Encrypted}
    (hf : f ∈ encryptedFields event.type) {held : Json} (hheld : MayHold event f held) :
    Underway event (put (parts f.1) held data) := by
  obtain ⟨old, hold, -⟩ := h.held f hf
  refine ⟨fun p value hp => ?_, fun g hg => ?_⟩
  · rw [at_put_of_apart (hp f hf) hold]
    exact h.outside p value hp
  · by_cases hfg : f = g
    · subst hfg
      exact ⟨held, at_put hold, hheld⟩
    · obtain ⟨other, hother, hmay⟩ := h.held g hg
      have : Std.Symm fun a b : String × Encrypted => Apart (parts a.1) (parts b.1) :=
        ⟨fun _ _ happart => happart.symm⟩
      have happart := (apart_encryptedFields event.type).forall hf hg hfg
      exact ⟨other, (at_put_of_apart happart hold).2 hother, hmay⟩

theorem underway_stored {encryption : Encryption K} {raw : Dict}
    (h : encryption.encryptFields event streamId 0 (encryptedFields event.type) event.dump =
      .ok raw) : Underway event raw where
  outside _ _ hp := at_encryptFields_of_apart hp h
  held f hf := by
    obtain ⟨u, key, value, text, hfield⟩ :=
      encryptedAs_of_encryptFields (apart_encryptedFields event.type) h f hf
    exact ⟨.str text, hfield.stored, .inr (.inl ⟨text, rfl⟩)⟩

/-- On the way, the subject under a plain field stays. -/
theorem Underway.decryptSubject {data : Dict} (hdata : Underway event data)
    {f : String × Encrypted} (hplain : ∀ subjectField, subjectFiled f.1 event.type =
      some subjectField → ∀ g ∈ encryptedFields event.type, Apart (parts subjectField) (parts g.1))
    {resolved : Subject} :
    EventSourcery.decryptSubject event.type streamId f.1 data = .ok resolved ↔
      EventSourcery.decryptSubject event.type streamId f.1 event.dump = .ok resolved := by
  unfold EventSourcery.decryptSubject
  cases hfield : subjectFiled f.1 event.type with
  | none => rfl
  | some subjectField =>
    have happart := hplain subjectField hfield
    simp only [map_getItem_eq_ok, hdata.outside _ _ fun g hg => (happart g hg).symm]

/-- The subjects of the event stand in its dump, under plain fields. -/
structure ClearSubjects (event : EventInstance) (streamId : StreamId) : Prop where
  plain : PlainSubjects event.type (encryptedFields event.type)
  shown : ∀ f ∈ encryptedFields event.type, ∀ subjectField,
    subjectFiled f.1 event.type = some subjectField →
      (getItem subjectField event.dump).map .json = encryptSubject event streamId f.1

/-- In the clear, the keys fit as long as no key is stored for the subject once it is shredded,
and none but their own for the other subjects of the event. -/
theorem keysFit_of_calls [DecidableEq κ] {before after : List (TenantId × KeyCall K)}
    (hclear : ClearSubjects event streamId)
    (hkeys : ∀ f ∈ encryptedFields event.type, ∃ u key,
      encryptSubject event streamId f.1 = .ok u ∧ get hash table t u = .ok (some key))
    (hown : ∀ other key, (t, .store other key) ∈ after → ¬ SameId hash subjectId other)
    (hothers : ∀ f ∈ encryptedFields event.type, ∀ u, encryptSubject event streamId f.1 = .ok u →
      ∀ other key, (t, .store other key) ∈ before ++ (t, .shred subjectId) :: after →
        SameId hash u other → get hash table t u = .ok (some key)) :
    KeysFit hash table (run (call hash) table (before ++ (t, .shred subjectId) :: after)).2 t
      subjectId event streamId := by
  intro data hdata f hf
  obtain ⟨u, key, hu, hkey⟩ := hkeys f hf
  obtain ⟨id, hid, -⟩ := get_eq_ok.1 hkey
  have hresolved : decryptSubject event.type streamId f.1 event.dump = .ok u := by
    cases hfield : subjectFiled f.1 event.type with
    | none => exact decryptSubject_of_none hfield hu
    | some subjectField =>
      simp only [decryptSubject, hfield, hclear.shown f hf subjectField hfield, hu]
  refine ⟨u, _, (hdata.decryptSubject (hclear.plain f hf)).2 hresolved,
    get_eq_ok.2 ⟨id, hid, rfl⟩, fun other hother => ⟨u, hu, ?_⟩⟩
  constructor
  · rcases key_origin hother with hother | ⟨v, hmem, hv⟩
    · exact get_eq_ok.2 ⟨id, hid, hother⟩
    · exact hothers f hf u hu v other hmem ⟨id, hid, hv⟩
  · rintro ⟨id', hsubject, hid'⟩
    obtain rfl : id' = id := Except.ok.inj (hid'.symm.trans hid)
    obtain ⟨v, hmem, hv⟩ := key_origin_shredded hsubject hother
    exact absurd ⟨id', hsubject, hv⟩ (hown v other hmem)

/-- What comes of a field when the keys fit: its mask, or what its value reads back as, and
its mask if it is the subject's. -/
theorem KeysFit.decryptValue {later : KeyTable κ K} {strategy : EncryptionStrategy K}
    (hfit : KeysFit hash table later t subjectId event streamId) (hstrategy : strategy.Inverts)
    {data : Dict} (hdata : Underway event data) {f : String × Encrypted}
    (hf : f ∈ encryptedFields event.type) {u : Subject} {key : K} {value : Json} {text : String}
    (hfield : EncryptedAs (encryption hash strategy table t) event streamId f.1 event.dump data u
      key value text) :
    ∃ resolved result, EventSourcery.decryptSubject event.type streamId f.1 data = .ok resolved ∧
      (encryption hash strategy later t).decryptValue (.str text) resolved f.2.maskValue =
        .ok result ∧ MayHold event f result ∧
          (SameId hash subjectId u → result = f.2.maskValue) := by
  obtain ⟨resolved, held, hresolved, hheld, hkey⟩ := hfit data hdata f hf
  cases held with
  | none => exact ⟨resolved, _, hresolved, decryptValue_of_none hheld, .inl rfl, fun _ => rfl⟩
  | some other =>
    obtain ⟨u', hu', hother, hmask⟩ := hkey other rfl
    obtain rfl : u' = u := Except.ok.inj (hu'.symm.trans hfield.subject)
    obtain rfl : other = key := Option.some.inj (Except.ok.inj (hother.symm.trans hfield.keyed))
    refine ⟨resolved, loaded (.str (serialized value)), hresolved, ?_,
      .inr (.inr ⟨value, hfield.held, rfl⟩), fun hsame => hmask hsame value hfield.held⟩
    rw [decryptValue_of_key hheld]
    exact map_eq_ok.2 ⟨_, hfield.decrypt hstrategy, rfl⟩

/-- Field by field, the event is decrypted and the fields of the subject are masked. -/
theorem KeysFit.decryptFields {later : KeyTable κ K} {strategy : EncryptionStrategy K}
    (hfit : KeysFit hash table later t subjectId event streamId) (hstrategy : strategy.Inverts)
    {fields : List (String × Encrypted)} {data : Dict}
    (hfields : ∀ f ∈ fields, f ∈ encryptedFields event.type)
    (happart : fields.Pairwise fun a b => Apart (parts a.1) (parts b.1))
    (hdata : Underway event data)
    (hstored : ∀ f ∈ fields, ∃ u key value text,
      EncryptedAs (encryption hash strategy table t) event streamId f.1 event.dump data u key value
        text) :
    ∃ final, (encryption hash strategy later t).decryptFields event.type streamId fields data =
        .ok final ∧
      ∀ f ∈ fields, ∀ u, encryptSubject event streamId f.1 = .ok u → SameId hash subjectId u →
        At (parts f.1) final f.2.maskValue := by
  induction fields generalizing data with
  | nil => exact ⟨data, rfl, by simp⟩
  | cons head fields ih =>
    obtain ⟨field, config⟩ := head
    obtain ⟨hhead, htail⟩ := List.pairwise_cons.1 happart
    have hmem := hfields (field, config) List.mem_cons_self
    obtain ⟨u, key, value, text, hfield⟩ := hstored (field, config) List.mem_cons_self
    obtain ⟨resolved, result, hresolved, hresult, hmay, hmask⟩ :=
      hfit.decryptValue hstrategy hdata hmem hfield
    have hstored' : ∀ f ∈ fields, ∃ u key value text,
        EncryptedAs (encryption hash strategy table t) event streamId f.1 event.dump
          (NestedDict.put (parts field) result data) u key value text := by
      intro f hf
      obtain ⟨u', key', value', text', hother⟩ := hstored f (List.mem_cons_of_mem _ hf)
      exact ⟨u', key', value', text', (encryptedAs_put hfield.stored (hhead f hf)).2 hother⟩
    obtain ⟨final, hfinal, hmasked⟩ := ih (fun f hf => hfields f (List.mem_cons_of_mem _ hf)) htail
      (hdata.put hmem hmay) hstored'
    refine ⟨final, bind_eq_ok.2 ⟨_, decryptField_eq_ok.2
      ⟨resolved, .str text, result, hresolved, hfield.stored, hresult, rfl⟩, hfinal⟩, ?_⟩
    intro f hf u' hu' hsame
    rcases List.mem_cons.1 hf with rfl | hf
    · obtain rfl : u = u' := Except.ok.inj (hfield.subject.symm.trans hu')
      rw [← hmask hsame]
      exact (at_decryptFields_of_apart (fun f hf => (hhead f hf).symm) hfinal).2
        (at_put hfield.stored)
    · exact hmasked f hf u' hu' hsame

/-- Whatever the strategy, a stored event is decrypted with the later keys, and the fields of
the subject are masked. -/
def Masked (hash : Subject → Except SerdeError κ) (table later : KeyTable κ K) (t : TenantId)
    (subjectId : Subject) (event : EventInstance) (streamId : StreamId) : Prop :=
  ∀ strategy : EncryptionStrategy K, strategy.Inverts → ∀ raw,
    (encryption hash strategy table t).encrypt event streamId = .ok raw →
      ∃ final, (encryption hash strategy later t).decrypt event.type raw streamId = .ok final ∧
        ∀ f ∈ encryptedFields event.type, ∀ u, encryptSubject event streamId f.1 = .ok u →
          SameId hash subjectId u → At (parts f.1) final f.2.maskValue

theorem KeysFit.masked {later : KeyTable κ K}
    (hfit : KeysFit hash table later t subjectId event streamId) :
    Masked hash table later t subjectId event streamId := by
  intro strategy hstrategy raw h
  obtain ⟨hundotted, hfields⟩ := encrypt_eq_ok.1 h
  have happart := apart_encryptedFields event.type
  obtain ⟨final, hfinal, hmasked⟩ := hfit.decryptFields hstrategy (fun _ hf => hf) happart
    (underway_stored hfields) (encryptedAs_of_encryptFields happart hfields)
  exact ⟨final, decrypt_eq_ok.2 ⟨undotted_of_keys (keys_encryptFields hfields) hundotted, hfinal⟩,
    hmasked⟩

/-- What was sealed with a key is read with that key, or not at all. -/
theorem EncryptedAs.key_of_sealing [DecidableEq K] {field : String} {key : K}
    {keyStorage keyStorage' : EncryptionKeyStorageStrategy K} {data raw : Dict}
    {u resolved : Subject} {value mask result : Json} {text : String}
    (h : EncryptedAs ⟨sealing key, keyStorage⟩ event streamId field data raw u key value text)
    (hresult : (Encryption.mk (sealing key) keyStorage').decryptValue (.str text) resolved mask =
      .ok result) :
    keyStorage'.get resolved = .ok (some key) ∧ result = loaded (.str (serialized value)) ∨
      keyStorage'.get resolved = .ok none ∧ result = mask := by
  obtain ⟨call, hsealed⟩ := h.sealed
  cases hget : keyStorage'.get resolved with
  | error e => simp [decryptValue, hget, bind, Except.bind] at hresult
  | ok held =>
    cases held with
    | none =>
      rw [decryptValue_of_none hget, Except.ok.injEq] at hresult
      exact .inr ⟨rfl, hresult.symm⟩
    | some other =>
      rw [decryptValue_of_key hget] at hresult
      obtain ⟨read, hread, rfl⟩ := map_eq_ok.1 hresult
      obtain rfl : other = key := sealing_decrypt_ok hsealed hread
      obtain rfl : read = _ :=
        Except.ok.inj (hread.symm.trans (h.decrypt (sealing_inverts other)))
      exact .inl ⟨rfl, rfl⟩

/-- With plain subjects the keys fit, if events sealed with the key of any field are masked. -/
theorem Masked.keysFit [DecidableEq K] {later : KeyTable κ K}
    (hmasked : Masked hash table later t subjectId event streamId)
    (hevent : Encryptable event streamId)
    (hplain : PlainSubjects event.type (encryptedFields event.type))
    (hkeys : ∀ f ∈ encryptedFields event.type, ∃ u key,
      encryptSubject event streamId f.1 = .ok u ∧ get hash table t u = .ok (some key)) :
    KeysFit hash table later t subjectId event streamId := by
  intro data hdata f hf
  have happart := apart_encryptedFields event.type
  obtain ⟨u, key, hu, hkey⟩ := hkeys f hf
  have hkeys' : (encryption hash (sealing key) table t).HasKeys event streamId
    (encryptedFields event.type) := hkeys
  obtain ⟨raw, hfields, -⟩ := decryptFields_encryptFields 0 (sealing_inverts key) happart hkeys'
    fun f hf => (hevent.fields f hf).1
  obtain ⟨final, hfinal, hown⟩ := hmasked (sealing key) (sealing_inverts key) raw
    (encrypt_eq_ok.2 ⟨hevent.undotted, hfields⟩)
  obtain ⟨u', key', value, text, hfield⟩ := encryptedAs_of_encryptFields happart hfields f hf
  obtain rfl : u' = u := Except.ok.inj (hfield.subject.symm.trans hu)
  obtain rfl : key' = key := Option.some.inj (Except.ok.inj (hfield.keyed.symm.trans hkey))
  obtain ⟨result, ⟨resolved, stored, hresolved, hstored, hresult⟩, hplace⟩ :=
    at_decryptFields hplain happart (decrypt_eq_ok.1 hfinal).2 f hf
  obtain rfl := hstored.unique hfield.stored
  rw [(underway_stored hfields).decryptSubject (hplain f hf),
    ← hdata.decryptSubject (hplain f hf)] at hresolved
  rcases hfield.key_of_sealing hresult with ⟨hget, hread⟩ | ⟨hget, -⟩
  · refine ⟨resolved, some key', hresolved, hget, fun other hother => ?_⟩
    obtain rfl := Option.some.inj hother
    refine ⟨u', hu, hkey, fun hsame held hheld => ?_⟩
    rw [hheld.unique hfield.held, ← hread]
    exact hplace.unique (hown f hf u' hu hsame)
  · exact ⟨resolved, none, hresolved, hget, fun _ hother => by cases hother⟩

/-- After any calls that change the keys, an event is decrypted and the fields of the subject
are masked if the keys fit. The converse holds where its subject fields are plain: of one that is
itself encrypted the condition asks for more than a run needs. -/
theorem shred_permanent_iff [DecidableEq κ] [DecidableEq K] {calls : List (TenantId × KeyCall K)}
    (hevent : Encryptable event streamId)
    (hkeys : ∀ f ∈ encryptedFields event.type, ∃ u key,
      encryptSubject event streamId f.1 = .ok u ∧ get hash table t u = .ok (some key)) :
    let later := (run (call hash) table calls).2
    (KeysFit hash table later t subjectId event streamId →
        Masked hash table later t subjectId event streamId) ∧
      (PlainSubjects event.type (encryptedFields event.type) →
        (Masked hash table later t subjectId event streamId ↔
          KeysFit hash table later t subjectId event streamId)) :=
  ⟨fun hfit => hfit.masked, fun hplain =>
    ⟨fun hmasked => hmasked.keysFit hevent hplain hkeys, fun hfit => hfit.masked⟩⟩

end Permanent

section Example

theorem orderWith_fragile : Encryptable (orderWith "fragile") { uuid := 1 } := by
  refine ⟨by decide, fun f hf => ?_⟩
  obtain rfl | rfl := List.mem_pair.1 hf
  · exact ⟨⟨_, getPath_eq_ok.1 rfl⟩, _, rfl⟩
  · exact ⟨⟨_, getPath_eq_ok.1 rfl⟩, _, rfl⟩

theorem orderWith_clear : ClearSubjects (orderWith "fragile") { uuid := 1 } := by
  refine ⟨orderWith_plain, fun f hf subjectField hsubject => ?_⟩
  obtain rfl | rfl := List.mem_pair.1 hf
  all_goals
    obtain rfl := Option.some.inj hsubject
    rfl

theorem shred_permanent_iff_ann :
    let later := (run (call idText) annsTable
      [(defaultTenant, .shred (.json (.str "Ann")))]).2
    let ann : Subject := .json (.str "Ann")
    (KeysFit idText annsTable later defaultTenant ann (orderWith "fragile") { uuid := 1 } →
        Masked idText annsTable later defaultTenant ann (orderWith "fragile") { uuid := 1 }) ∧
      (PlainSubjects orderType (encryptedFields orderType) →
        (Masked idText annsTable later defaultTenant ann (orderWith "fragile") { uuid := 1 } ↔
          KeysFit idText annsTable later defaultTenant ann (orderWith "fragile")
            { uuid := 1 })) := by
  refine shred_permanent_iff orderWith_fragile fun f hf => ?_
  obtain rfl | rfl := List.mem_pair.1 hf
  all_goals exact ⟨_, "key-", rfl, rfl⟩

/-- Shredding Ann masks her order, also when Bob got a key. -/
example : Masked idText annsTable (run (call idText) annsTable
    ([(defaultTenant, .store (.json (.str "Bob")) "new-")] ++
      [(defaultTenant, .shred (.json (.str "Ann")))])).2 defaultTenant (.json (.str "Ann"))
    (orderWith "fragile") { uuid := 1 } := by
  have hkeys : ∀ f ∈ encryptedFields orderType, ∃ u key,
      encryptSubject (orderWith "fragile") { uuid := 1 } f.1 = .ok u ∧
        get idText annsTable defaultTenant u = .ok (some key) := by
    intro f hf
    obtain rfl | rfl := List.mem_pair.1 hf
    all_goals exact ⟨_, "key-", rfl, rfl⟩
  refine KeysFit.masked (keysFit_of_calls orderWith_clear hkeys (by simp) ?_)
  intro f hf u hu v key hmem hsame
  obtain ⟨rfl, rfl⟩ : v = .json (.str "Bob") ∧ key = "new-" := by simpa using hmem
  obtain rfl : u = .json (.str "Ann") := by
    obtain rfl | rfl := List.mem_pair.1 hf
    all_goals exact (Except.ok.inj hu).symm
  obtain ⟨id, hann, hbob⟩ := hsame
  cases hann
  simp [idText] at hbob

/-- After a new key was stored for Ann, her order cannot be decrypted any more. -/
theorem shred_permanent_reissued :
    (sealing "key-").Inverts ∧
      ∃ raw, (encryption idText (sealing "key-") annsTable defaultTenant).encrypt
          (orderWith "fragile") { uuid := 1 } = .ok raw ∧
        (encryption idText (sealing "key-") (run (call idText) annsTable
            [(defaultTenant, .shred (.json (.str "Ann"))),
              (defaultTenant, .store (.json (.str "Ann")) "new-")]).2 defaultTenant).decrypt
          orderType raw { uuid := 1 } = .error (.raised "the key does not fit") :=
  ⟨sealing_inverts _, _, rfl, rfl⟩

end Example

end EventSourcery
