import EventSourcery.KeyStorage
import EventSourcery.Subjects

/-!
# Shredding

Shredding a subject deletes its key in the storage of one tenant. Where the subject
fields of a type are plain, the events of the type are decrypted after it as before,
except that the fields of that subject are masked.
-/
namespace EventSourcery
open JsonText NestedDict EventRegistry Encryption Runs InMemoryKeyStorage

/-- The subject fields of a type are plain: apart from every encrypted field. -/
def PlainSubjects (eventType : EventType) (fields : List (String × Encrypted)) : Prop :=
  ∀ f ∈ fields, ∀ subjectField, subjectFiled f.1 eventType = some subjectField →
    ∀ g ∈ fields, Apart (parts subjectField) (parts g.1)

section Plain
variable {K : Type} {encryption : Encryption K} {eventType : EventType} {streamId : StreamId}
  {field : String} {config : Encrypted} {fields : List (String × Encrypted)}
  {data next final : Dict} {p : List String} {value written : Json}

theorem PlainSubjects.tail {f : String × Encrypted} (h : PlainSubjects eventType (f :: fields)) :
    PlainSubjects eventType fields := fun g hg subjectField hfield g' hg' =>
  h g (List.mem_cons_of_mem _ hg) subjectField hfield g' (List.mem_cons_of_mem _ hg')

/-- A write apart from the subject field leaves the subject. -/
theorem decryptSubject_put {subjectId : Subject} (hat : At p data value)
    (happart : ∀ subjectField, subjectFiled field eventType = some subjectField →
      Apart p (parts subjectField)) :
    decryptSubject eventType streamId field (put p written data) = .ok subjectId ↔
      decryptSubject eventType streamId field data = .ok subjectId := by
  unfold decryptSubject
  cases hfield : subjectFiled field eventType with
  | none => rfl
  | some subjectField =>
    simp only [map_getItem_eq_ok, at_put_of_apart (happart subjectField hfield) hat]

/-- Decryption neither sees nor changes what is apart from the fields and their subjects. -/
theorem decryptFields_put (written : Json) (hat : At p data value)
    (happart : ∀ f ∈ fields, Apart p (parts f.1))
    (hsubjects : ∀ f ∈ fields, ∀ subjectField, subjectFiled f.1 eventType = some subjectField →
      Apart p (parts subjectField))
    (h : encryption.decryptFields eventType streamId fields data = .ok final) :
    encryption.decryptFields eventType streamId fields (put p written data) =
      .ok (put p written final) := by
  induction fields generalizing data with
  | nil =>
    simp only [decryptFields, Except.ok.injEq] at h ⊢
    rw [h]
  | cons head fields ih =>
    obtain ⟨field, config⟩ := head
    have hfield : Apart p (parts field) := happart (field, config) List.mem_cons_self
    obtain ⟨next, hnext, h⟩ := bind_eq_ok.1 h
    obtain ⟨subjectId, old, decrypted, hsubject, hold, hdecrypted, rfl⟩ :=
      decryptField_eq_ok.1 hnext
    have hnext' : encryption.decryptField eventType streamId field config (put p written data) =
        .ok (put (parts field) decrypted (put p written data)) :=
      decryptField_eq_ok.2 ⟨subjectId, old, decrypted,
        (decryptSubject_put hat (hsubjects _ List.mem_cons_self)).2 hsubject,
        (at_put_of_apart hfield hat).2 hold, hdecrypted, rfl⟩
    rw [put_comm hfield.symm hold hat] at hnext'
    exact bind_eq_ok.2 ⟨_, hnext', ih ((at_put_of_apart hfield.symm hold).2 hat)
      (fun f hf => happart f (List.mem_cons_of_mem _ hf))
      (fun f hf => hsubjects f (List.mem_cons_of_mem _ hf)) h⟩

end Plain

section Shred
variable {κ K : Type} [DecidableEq κ] (hash : Subject → Except SerdeError κ)
  (strategy : EncryptionStrategy K) (table : KeyTable κ K) (t : TenantId) (subjectId : Subject)

/-- Two subject ids are one key of a dict. -/
def SameId (other : Subject) : Prop := ∃ id, hash subjectId = .ok id ∧ hash other = .ok id

/-- The subject that decryption resolves for a field is the given one. -/
def BelongsTo (eventType : EventType) (streamId : StreamId) (data : Dict) (field : String) :
    Prop :=
  ∃ resolved, decryptSubject eventType streamId field data = .ok resolved ∧
    SameId hash subjectId resolved

variable {hash strategy table t subjectId} {eventType : EventType} {streamId : StreamId}
  {field : String} {config : Encrypted} {fields : List (String × Encrypted)}
  {data raw before : Dict} {value : Json}

theorem decryptValue_shred_own {resolved : Subject} {mask : Json}
    (hsame : SameId hash subjectId resolved) :
    (encryption hash strategy (call hash table (t, .shred subjectId)).2 t).decryptValue value
      resolved mask = .ok mask := by
  obtain ⟨id, hid, hresolved⟩ := hsame
  have hget : get hash (call hash table (t, .shred subjectId)).2 t resolved = .ok none :=
    get_eq_ok.2 ⟨id, hresolved, call_shred hid⟩
  simp only [decryptValue, encryption, scopedForTenant, hget, bind, Except.bind]

theorem decryptValue_shred_other {resolved : Subject} {mask : Json}
    (hother : ¬ SameId hash subjectId resolved) :
    (encryption hash strategy (call hash table (t, .shred subjectId)).2 t).decryptValue value
      resolved mask = (encryption hash strategy table t).decryptValue value resolved mask := by
  have hget : get hash (call hash table (t, .shred subjectId)).2 t resolved =
      get hash table t resolved := by
    unfold InMemoryKeyStorage.get
    cases hresolved : hash resolved with
    | error e => rfl
    | ok id =>
      simp only [Except.map]
      rw [call_of_ne fun _ hid => hother ⟨id, hid, hresolved⟩]
  simp only [decryptValue, encryption, scopedForTenant, hget]

/-- The other tenants' keys are as before. -/
theorem encryption_shred_of_ne {u : TenantId} (hu : u ≠ t) :
    encryption hash strategy (call hash table (t, .shred subjectId)).2 u =
      encryption hash strategy table u := by
  have hget : get hash (call hash table (t, .shred subjectId)).2 u = get hash table u := by
    funext resolved
    unfold InMemoryKeyStorage.get
    congr 1
    funext id
    exact call_of_ne fun h => absurd h.symm hu
  simp only [encryption, scopedForTenant, hget]

/-- Decryption after shredding, beside the decryption before it. -/
theorem decryptFields_shred (hplain : PlainSubjects eventType fields)
    (happart : fields.Pairwise fun a b => Apart (parts a.1) (parts b.1))
    (h : (encryption hash strategy table t).decryptFields eventType streamId fields data =
      .ok before) :
    ∃ after, (encryption hash strategy (call hash table (t, .shred subjectId)).2 t).decryptFields
        eventType streamId fields data = .ok after ∧
      (∀ f ∈ fields, BelongsTo hash subjectId eventType streamId data f.1 →
        At (parts f.1) after f.2.maskValue) ∧
      ∀ p value, (∀ f ∈ fields, BelongsTo hash subjectId eventType streamId data f.1 →
        Apart (parts f.1) p) → (At p after value ↔ At p before value) := by
  induction fields generalizing data with
  | nil => exact ⟨before, h, by simp, fun _ _ _ => Iff.rfl⟩
  | cons head fields ih =>
    obtain ⟨field, config⟩ := head
    obtain ⟨hhead, htail⟩ := List.pairwise_cons.1 happart
    obtain ⟨next, hnext, h⟩ := bind_eq_ok.1 h
    obtain ⟨resolved, value, result, hresolved, hat, hresult, rfl⟩ := decryptField_eq_ok.1 hnext
    have hsubjects : ∀ f ∈ fields, ∀ subjectField, subjectFiled f.1 eventType = some subjectField →
        Apart (parts field) (parts subjectField) := fun f hf subjectField hfield =>
      (hplain f (List.mem_cons_of_mem _ hf) subjectField hfield (field, config)
        List.mem_cons_self).symm
    have hbelongs : ∀ f ∈ fields,
        BelongsTo hash subjectId eventType streamId (put (parts field) result data) f.1 ↔
          BelongsTo hash subjectId eventType streamId data f.1 := by
      intro f hf
      simp only [BelongsTo, decryptSubject_put hat (hsubjects f hf)]
    obtain ⟨after, hafter, hmasked, hframe⟩ := ih hplain.tail htail h
    by_cases hown : BelongsTo hash subjectId eventType streamId data field
    · obtain ⟨own, hresolved', hown⟩ := hown
      obtain rfl : own = resolved := Except.ok.inj (hresolved'.symm.trans hresolved)
      have hplace : At (parts field) after result :=
        (at_decryptFields_of_apart (fun f hf => (hhead f hf).symm) hafter).2 (at_put hat)
      have hrest := decryptFields_put config.maskValue (at_put hat) hhead hsubjects
        hafter
      rw [put_put hat] at hrest
      refine ⟨put (parts field) config.maskValue after, bind_eq_ok.2 ⟨_, decryptField_eq_ok.2
        ⟨own, value, _, hresolved, hat, decryptValue_shred_own hown, rfl⟩, hrest⟩, ?_, ?_⟩
      · intro f hf hf'
        rcases List.mem_cons.1 hf with rfl | hf
        · exact at_put hplace
        · rw [at_put_of_apart (hhead f hf) hplace]
          exact hmasked f hf ((hbelongs f hf).2 hf')
      · intro p u hp
        rw [at_put_of_apart (hp (field, config) List.mem_cons_self ⟨own, hresolved, hown⟩) hplace]
        exact hframe p u fun f hf hf' => hp f (List.mem_cons_of_mem _ hf) ((hbelongs f hf).1 hf')
    · have hother : ¬ SameId hash subjectId resolved := fun hsame =>
        hown ⟨resolved, hresolved, hsame⟩
      refine ⟨after, bind_eq_ok.2 ⟨_, decryptField_eq_ok.2 ⟨resolved, value, result, hresolved, hat,
        (decryptValue_shred_other hother).trans hresult, rfl⟩, hafter⟩, ?_, ?_⟩
      · intro f hf hf'
        rcases List.mem_cons.1 hf with rfl | hf
        · exact absurd hf' hown
        · exact hmasked f hf ((hbelongs f hf).2 hf')
      · intro p u hp
        exact hframe p u fun f hf hf' => hp f (List.mem_cons_of_mem _ hf) ((hbelongs f hf).1 hf')

/-- Shredding a subject's key masks the fields of that subject and nothing else, for the
tenant that shreds it and for no other. -/
theorem shred_masks (hplain : PlainSubjects eventType (encryptedFields eventType))
    (h : (encryption hash strategy table t).decrypt eventType raw streamId = .ok before) :
    (∃ after, (encryption hash strategy (call hash table (t, .shred subjectId)).2 t).decrypt
        eventType raw streamId = .ok after ∧
      (∀ f ∈ encryptedFields eventType, BelongsTo hash subjectId eventType streamId raw f.1 →
        At (parts f.1) after f.2.maskValue) ∧
      ∀ p value, (∀ f ∈ encryptedFields eventType,
        BelongsTo hash subjectId eventType streamId raw f.1 → Apart (parts f.1) p) →
          (At p after value ↔ At p before value)) ∧
    ∀ u ≠ t, (encryption hash strategy (call hash table (t, .shred subjectId)).2 u).decrypt
        eventType raw streamId =
      (encryption hash strategy table u).decrypt eventType raw streamId := by
  obtain ⟨hundotted, hfields⟩ := decrypt_eq_ok.1 h
  refine ⟨?_, fun u hu => by rw [encryption_shred_of_ne hu]⟩
  obtain ⟨after, hafter, hmasked, hframe⟩ :=
    decryptFields_shred hplain (apart_encryptedFields eventType) hfields
  exact ⟨after, decrypt_eq_ok.2 ⟨hundotted, hafter⟩, hmasked, hframe⟩

end Shred

section Example

/-- Ids are strings. -/
def idText : Subject → Except SerdeError String
  | .json (.str s) => .ok s
  | _ => .error .typeError

def annsTable : KeyTable String String := fun i =>
  if i = (defaultTenant, "Ann") then some "key-" else none

theorem orderWith_plain : PlainSubjects orderType (encryptedFields orderType) := by
  unfold PlainSubjects Apart
  decide

/-- Ann's order, as it is stored. -/
def annsOrder : Dict :=
  [("customer", .str "Ann"), ("note", .str "key-eligarf"),
    ("bill", .obj [("total", .str "key-24"), ("currency", .str "EUR")])]

theorem annsOrder_decrypt :
    (encryption idText backwards annsTable defaultTenant).decrypt orderType annsOrder
      { uuid := 1 } = .ok (orderWith "fragile").dump := rfl

theorem shred_masks_ann :
    (∃ after, (encryption idText backwards (call idText annsTable
          (defaultTenant, .shred (.json (.str "Ann")))).2 defaultTenant).decrypt orderType annsOrder
        { uuid := 1 } = .ok after ∧
      (∀ f ∈ encryptedFields orderType, BelongsTo idText (.json (.str "Ann")) orderType
        { uuid := 1 } annsOrder f.1 → At (parts f.1) after f.2.maskValue) ∧
      ∀ p value, (∀ f ∈ encryptedFields orderType, BelongsTo idText (.json (.str "Ann")) orderType
        { uuid := 1 } annsOrder f.1 → Apart (parts f.1) p) →
          (At p after value ↔ At p (orderWith "fragile").dump value)) ∧
    ∀ u ≠ defaultTenant, (encryption idText backwards (call idText annsTable
          (defaultTenant, .shred (.json (.str "Ann")))).2 u).decrypt orderType annsOrder
        { uuid := 1 } =
      (encryption idText backwards annsTable u).decrypt orderType annsOrder { uuid := 1 } :=
  shred_masks orderWith_plain annsOrder_decrypt

end Example

end EventSourcery
