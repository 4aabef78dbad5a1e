import EventSourcery.EventStore
import EventSourcery.Registry

/-!
# Encryption of events

Every encrypted field is serialized, encrypted with the key of its subject and put
in its place; decryption walks the same fields in the same order. A string is
serialized as itself, any other value as its JSON text, and what is decrypted is
read as JSON if it can be. So a string that is a JSON text comes back as something
else. Python's limits on recursion and on the digits of an integer are not
modelled.
-/
namespace EventSourcery
open JsonText NestedDict EventRegistry

/-- What Python counts as true; a float is zero when no digit before its exponent
is another one. -/
def Subject.truthy : Subject → Bool
  | .json .null => false
  | .json (.bool b) => b
  | .json (.int n) => n ≠ 0
  | .json (.float text) =>
      (text.toList.takeWhile fun c => c ≠ 'e' && c ≠ 'E').any fun c => c ∉ ['-', '0', '.']
  | .json (.str s) => s ≠ ""
  | .json (.arr items) => !items.isEmpty
  | .json (.obj fields) => !fields.isEmpty
  | .object _ _ truthy => truthy

/-- `Encryption.encrypt` numbers its calls, so that a strategy can draw random numbers.
What is decrypted, and what comes out, are Python values; they are JSON values here. -/
structure EncryptionStrategy (K : Type) where
  encrypt : ℕ → String → K → Except SerdeError String
  decrypt : Json → K → Except SerdeError Json

/-- Whatever is encrypted with a key is decrypted with it. -/
def EncryptionStrategy.Inverts {K : Type} (strategy : EncryptionStrategy K) : Prop :=
  ∀ call data key, ∃ encrypted, strategy.encrypt call data key = .ok encrypted ∧
    strategy.decrypt (.str encrypted) key = .ok (.str data)

structure EncryptionKeyStorageStrategy (K : Type) where
  get : Subject → Except SerdeError (Option K)

/-- An event: its type, its JSON dump and its attributes. -/
structure EventInstance where
  type : EventType
  dump : Dict
  getattr : String → Except SerdeError Subject
  wellFormed : WellFormed (.obj dump)

structure Encryption (K : Type) where
  strategy : EncryptionStrategy K
  keyStorage : EncryptionKeyStorageStrategy K

/-- The text that is encrypted for a value. -/
def serialized : Json → String
  | .str s => s
  | value => String.ofList (dumps value)

/-- The value that is read from what was decrypted; only a string is read. -/
def loaded : Json → Json
  | .str s => (loads s.toList).getD (.str s)
  | value => value

/-- A field's subject id in `Encryption.encrypt`. -/
def encryptSubject (event : EventInstance) (streamId : StreamId) (field : String) :
    Except SerdeError Subject := do
  let subject ← match subjectFiled field event.type with
    | some subjectField => (event.getattr subjectField).map fun subject =>
        if subject.truthy then some subject else none
    | none => .ok none
  match subject.or (streamId.name.map fun name => .json (.str name)) with
  | some subjectId => .ok subjectId
  | none => .error (.noSubjectIdFound streamId)

/-- A field's subject id in `Encryption.decrypt`. -/
def decryptSubject (eventType : EventType) (streamId : StreamId) (field : String) (data : Dict) :
    Except SerdeError Subject :=
  match subjectFiled field eventType with
  | some subjectField => (getItem subjectField data).map .json
  | none => .ok (.json (.str (streamId.name.getD "")))

namespace Encryption
variable {K : Type} (encryption : Encryption K)

def encryptValue (call : ℕ) (value : Json) (subjectId : Subject) : Except SerdeError String := do
  match ← encryption.keyStorage.get subjectId with
  | none => .error (.keyNotFoundError subjectId)
  | some key => encryption.strategy.encrypt call (serialized value) key

def decryptValue (value : Json) (subjectId : Subject) (maskValue : Json) :
    Except SerdeError Json := do
  match ← encryption.keyStorage.get subjectId with
  | none => .ok maskValue
  | some key => (encryption.strategy.decrypt value key).map loaded

/-- The body of the loop of `encrypt`. -/
def encryptField (event : EventInstance) (streamId : StreamId) (call : ℕ) (field : String)
    (data : Dict) : Except SerdeError Dict := do
  let subjectId ← encryptSubject event streamId field
  let value ← getItem field data
  let encrypted ← encryption.encryptValue call value subjectId
  setItem field (.str encrypted) data

def encryptFields (event : EventInstance) (streamId : StreamId) :
    ℕ → List (String × Encrypted) → Dict → Except SerdeError Dict
  | _, [], data => .ok data
  | call, (field, _) :: fields, data =>
      (encryption.encryptField event streamId call field data).bind
        (encryptFields event streamId (call + 1) fields)

def encrypt (event : EventInstance) (streamId : StreamId) : Except SerdeError Dict :=
  (ofDict event.dump).bind
    (encryption.encryptFields event streamId 0 (encryptedFields event.type))

/-- The body of the loop of `decrypt`. -/
def decryptField (eventType : EventType) (streamId : StreamId) (field : String)
    (config : Encrypted) (data : Dict) : Except SerdeError Dict := do
  let subjectId ← decryptSubject eventType streamId field data
  let value ← getItem field data
  let decrypted ← encryption.decryptValue value subjectId config.maskValue
  setItem field decrypted data

def decryptFields (eventType : EventType) (streamId : StreamId) :
    List (String × Encrypted) → Dict → Except SerdeError Dict
  | [], data => .ok data
  | (field, config) :: fields, data =>
      (encryption.decryptField eventType streamId field config data).bind
        (decryptFields eventType streamId fields)

def decrypt (eventType : EventType) (raw : Dict) (streamId : StreamId) : Except SerdeError Dict :=
  (ofDict raw).bind (encryption.decryptFields eventType streamId (encryptedFields eventType))

/-- Decryption, field by field, resolves the subject that encryption resolved. -/
def SameSubjects (event : EventInstance) (streamId : StreamId) :
    List (String × Encrypted) → Dict → Prop
  | [], _ => True
  | (field, config) :: fields, data =>
      decryptSubject event.type streamId field data = encryptSubject event streamId field ∧
      ∀ next, encryption.decryptField event.type streamId field config data = .ok next →
        SameSubjects event streamId fields next

/-- Every subject has a key. -/
def HasKeys (event : EventInstance) (streamId : StreamId) (fields : List (String × Encrypted)) :
    Prop :=
  ∀ field ∈ fields, ∃ subjectId key, encryptSubject event streamId field.1 = .ok subjectId ∧
    encryption.keyStorage.get subjectId = .ok (some key)

end Encryption

section Values

/-- A value is read back from its own text, unless it is a string that is a JSON text. -/
theorem loaded_serialized_iff {value : Json} (h : WellFormed value) :
    loaded (.str (serialized value)) = value ↔
      ∀ s, value = .str s → loads s.toList = none := by
  cases value with
  | str s =>
    simp only [serialized, loaded, Json.str.injEq, forall_eq']
    cases hloads : loads s.toList with
    | none => simp
    | some read =>
      simp only [Option.getD_some, reduceCtorEq, iff_false]
      rintro rfl
      exact loads_ne_str s hloads
  | _ =>
    simp only [serialized, loaded, String.toList_ofList, loads_dumps h, Option.getD_some,
      reduceCtorEq, false_implies, implies_true]

end Values

section Fields
open Encryption
variable {K : Type} {encryption : Encryption K} {event : EventInstance} {streamId : StreamId}
  {call : ℕ} {field : String} {config : Encrypted} {fields : List (String × Encrypted)}
  {data next raw final : Dict} {eventType : EventType}

/-- Encrypting a field puts the encrypted text of its value in its place. -/
theorem encryptField_eq_ok : encryption.encryptField event streamId call field data = .ok next ↔
    ∃ subjectId value encrypted, encryptSubject event streamId field = .ok subjectId ∧
      At (parts field) data value ∧
      encryption.encryptValue call value subjectId = .ok encrypted ∧
      next = put (parts field) (.str encrypted) data := by
  unfold encryptField getItem setItem
  simp only [bind, bind_eq_ok, getPath_eq_ok]
  constructor
  · rintro ⟨subjectId, hsubject, value, hat, encrypted, hencrypted, hset⟩
    rw [setPath_of_at hat, Except.ok.injEq] at hset
    exact ⟨subjectId, value, encrypted, hsubject, hat, hencrypted, hset.symm⟩
  · rintro ⟨subjectId, value, encrypted, hsubject, hat, hencrypted, rfl⟩
    exact ⟨subjectId, hsubject, value, hat, encrypted, hencrypted, setPath_of_at hat⟩

/-- Decrypting a field puts what comes of its value in its place. -/
theorem decryptField_eq_ok :
    encryption.decryptField eventType streamId field config data = .ok next ↔
      ∃ subjectId value decrypted, decryptSubject eventType streamId field data = .ok subjectId ∧
        At (parts field) data value ∧
        encryption.decryptValue value subjectId config.maskValue = .ok decrypted ∧
        next = put (parts field) decrypted data := by
  unfold decryptField getItem setItem
  simp only [bind, bind_eq_ok, getPath_eq_ok]
  constructor
  · rintro ⟨subjectId, hsubject, value, hat, decrypted, hdecrypted, hset⟩
    rw [setPath_of_at hat, Except.ok.injEq] at hset
    exact ⟨subjectId, value, decrypted, hsubject, hat, hdecrypted, hset.symm⟩
  · rintro ⟨subjectId, value, decrypted, hsubject, hat, hdecrypted, rfl⟩
    exact ⟨subjectId, hsubject, value, hat, decrypted, hdecrypted, setPath_of_at hat⟩

/-- Decrypting a field that holds what was encrypted puts the value that is read there. -/
theorem decryptField_of_encrypted {subjectId : Subject} {key : K} {encrypted text : String}
    (hsubject : decryptSubject event.type streamId field data = .ok subjectId)
    (hkey : encryption.keyStorage.get subjectId = .ok (some key))
    (hat : At (parts field) data (.str encrypted))
    (hdecrypt : encryption.strategy.decrypt (.str encrypted) key = .ok (.str text)) :
    encryption.decryptField event.type streamId field config data =
      .ok (put (parts field) (loaded (.str text)) data) := by
  unfold decryptField decryptValue getItem setItem
  simp only [bind, Except.bind, hsubject, getPath_eq_ok.2 hat, hkey, hdecrypt, Except.map,
    setPath_of_at hat]

/-- Values put in the places of the fields, one after the other. -/
inductive Puts : List (String × Encrypted) → Dict → Dict → Prop
  | nil {data : Dict} : Puts [] data data
  | cons {field : String} {config : Encrypted} {fields : List (String × Encrypted)}
      {data final : Dict} {value written : Json} (hat : At (parts field) data value)
      (hrest : Puts fields (put (parts field) written data) final) :
      Puts ((field, config) :: fields) data final

/-- What a put in the place of a field keeps, they all keep. -/
theorem Puts.keeps {P : Dict → Prop} (h : Puts fields data final)
    (hput : ∀ f ∈ fields, ∀ d value written, At (parts f.1) d value → P d →
      P (put (parts f.1) written d)) (hdata : P data) : P final := by
  induction h with
  | nil => exact hdata
  | cons hat _ ih =>
    exact ih (fun f hf => hput f (List.mem_cons_of_mem _ hf))
      (hput _ List.mem_cons_self _ _ _ hat hdata)

theorem Puts.at_of_apart {p : List String} {value : Json} (h : Puts fields data final)
    (happart : ∀ f ∈ fields, Apart (parts f.1) p) : At p final value ↔ At p data value :=
  h.keeps (P := fun d => At p d value ↔ At p data value)
    (fun f hf _ _ _ hat hd => (at_put_of_apart (happart f hf) hat).trans hd) Iff.rfl

theorem puts_of_encryptFields
    (h : encryption.encryptFields event streamId call fields data = .ok raw) :
    Puts fields data raw := by
  induction fields generalizing call data with
  | nil =>
    simp only [encryptFields, Except.ok.injEq] at h
    exact h ▸ .nil
  | cons head fields ih =>
    obtain ⟨field, config⟩ := head
    obtain ⟨next, hnext, h⟩ := bind_eq_ok.1 h
    obtain ⟨subjectId, value, encrypted, -, hat, -, rfl⟩ := encryptField_eq_ok.1 hnext
    exact .cons hat (ih h)

theorem puts_of_decryptFields
    (h : encryption.decryptFields eventType streamId fields data = .ok final) :
    Puts fields data final := by
  induction fields generalizing data with
  | nil =>
    simp only [decryptFields, Except.ok.injEq] at h
    exact h ▸ .nil
  | cons head fields ih =>
    obtain ⟨field, config⟩ := head
    obtain ⟨next, hnext, h⟩ := bind_eq_ok.1 h
    obtain ⟨subjectId, value, decrypted, -, hat, -, rfl⟩ := decryptField_eq_ok.1 hnext
    exact .cons hat (ih h)

/-- Encryption keeps the keys of the dict. -/
theorem keys_encryptFields
    (h : encryption.encryptFields event streamId call fields data = .ok raw) :
    raw.map Prod.fst = data.map Prod.fst :=
  (puts_of_encryptFields h).keeps (P := fun d => d.map Prod.fst = data.map Prod.fst)
    (fun _ _ _ _ _ hat hd => (keys_put hat).trans hd) rfl

/-- Encryption neither sees nor changes what is in a path apart from the fields. -/
theorem encryptFields_put {p : List String} {value : Json} (written : Json)
    (happart : ∀ f ∈ fields, Apart p (parts f.1)) (hat : At p data value)
    (h : encryption.encryptFields event streamId call fields data = .ok raw) :
    At p raw value ∧ encryption.encryptFields event streamId call fields (put p written data) =
      .ok (put p written raw) := by
  induction fields generalizing call data with
  | nil =>
    simp only [encryptFields, Except.ok.injEq] at h ⊢
    exact ⟨h ▸ hat, by rw [h]⟩
  | cons head fields ih =>
    obtain ⟨field, config⟩ := head
    have hfield : Apart p (parts field) := happart (field, config) List.mem_cons_self
    obtain ⟨next, hnext, h⟩ := bind_eq_ok.1 h
    obtain ⟨subjectId, old, encrypted, hsubject, hold, hencrypted, rfl⟩ :=
      encryptField_eq_ok.1 hnext
    have hnext' : encryption.encryptField event streamId call field (put p written data) =
        .ok (put (parts field) (.str encrypted) (put p written data)) :=
      encryptField_eq_ok.2 ⟨subjectId, old, encrypted, hsubject,
        (at_put_of_apart hfield hat).2 hold, hencrypted, rfl⟩
    rw [put_comm hfield.symm hold hat] at hnext'
    obtain ⟨hplace, hrest⟩ := ih (fun f hf => happart f (List.mem_cons_of_mem _ hf))
      ((at_put_of_apart hfield.symm hold).2 hat) h
    exact ⟨hplace, bind_eq_ok.2 ⟨_, hnext', hrest⟩⟩

/-- Decryption leaves what is apart from the fields. -/
theorem at_decryptFields_of_apart {p : List String} {value : Json}
    (happart : ∀ f ∈ fields, Apart (parts f.1) p)
    (h : encryption.decryptFields eventType streamId fields data = .ok final) :
    At p final value ↔ At p data value :=
  (puts_of_decryptFields h).at_of_apart happart

/-- Encryption leaves what is apart from the fields. -/
theorem at_encryptFields_of_apart {p : List String} {value : Json}
    (happart : ∀ f ∈ fields, Apart (parts f.1) p)
    (h : encryption.encryptFields event streamId call fields data = .ok raw) :
    At p raw value ↔ At p data value :=
  (puts_of_encryptFields h).at_of_apart happart

/-- What encryption made of a field: `text` stands where `value` stood. -/
structure EncryptedAs (encryption : Encryption K) (event : EventInstance) (streamId : StreamId)
    (field : String) (data raw : Dict) (subjectId : Subject) (key : K) (value : Json)
    (text : String) : Prop where
  subject : encryptSubject event streamId field = .ok subjectId
  keyed : encryption.keyStorage.get subjectId = .ok (some key)
  held : At (parts field) data value
  sealed : ∃ call, encryption.strategy.encrypt call (serialized value) key = .ok text
  stored : At (parts field) raw (.str text)

theorem encryptValue_eq_ok {value : Json} {subjectId : Subject} {text : String} :
    encryption.encryptValue call value subjectId = .ok text ↔
      ∃ key, encryption.keyStorage.get subjectId = .ok (some key) ∧
        encryption.strategy.encrypt call (serialized value) key = .ok text := by
  unfold encryptValue
  cases encryption.keyStorage.get subjectId with
  | error e => simp [bind, Except.bind]
  | ok held => cases held <;> simp [bind, Except.bind]

/-- Every field is encrypted. -/
theorem encryptedAs_of_encryptFields
    (happart : fields.Pairwise fun a b => Apart (parts a.1) (parts b.1))
    (h : encryption.encryptFields event streamId call fields data = .ok raw) :
    ∀ f ∈ fields, ∃ subjectId key value text,
      EncryptedAs encryption event streamId f.1 data raw subjectId key value text := by
  induction fields generalizing call data with
  | nil => simp
  | cons head fields ih =>
    obtain ⟨field, config⟩ := head
    obtain ⟨hhead, htail⟩ := List.pairwise_cons.1 happart
    obtain ⟨next, hnext, h⟩ := bind_eq_ok.1 h
    obtain ⟨subjectId, value, text, hsubject, hat, hencrypted, rfl⟩ := encryptField_eq_ok.1 hnext
    obtain ⟨key, hkey, htext⟩ := encryptValue_eq_ok.1 hencrypted
    intro f hf
    rcases List.mem_cons.1 hf with rfl | hf
    · exact ⟨subjectId, key, value, text, hsubject, hkey, hat, ⟨call, htext⟩,
        (at_encryptFields_of_apart (fun f hf => (hhead f hf).symm) h).2 (at_put hat)⟩
    · obtain ⟨subjectId, key, value, text, hfield⟩ := ih htail h f hf
      exact ⟨subjectId, key, value, text, hfield.subject, hfield.keyed,
        (at_put_of_apart (hhead f hf) hat).1 hfield.held, hfield.sealed, hfield.stored⟩

/-- What becomes of data when the fields are encrypted and decrypted: whatever is apart from
them stays, and all stays if and only if the value of every field is read back. -/
structure ReadBack (fields : List (String × Encrypted)) (data final : Dict) : Prop where
  frame : ∀ p value, (∀ f ∈ fields, Apart (parts f.1) p) → (At p final value ↔ At p data value)
  eq_iff : final = data ↔ ∀ f ∈ fields, ∀ value, At (parts f.1) data value →
    loaded (.str (serialized value)) = value

theorem readBack_cons {value : Json} {final : Dict}
    (happart : ∀ f ∈ fields, Apart (parts field) (parts f.1)) (hvalue : At (parts field) data value)
    (h : ReadBack fields (put (parts field) (loaded (.str (serialized value))) data) final) :
    ReadBack ((field, config) :: fields) data final := by
  have hread : At (parts field) final (loaded (.str (serialized value))) :=
    (h.frame _ _ fun f hf => (happart f hf).symm).2 (at_put hvalue)
  constructor
  · intro p u hp
    rw [h.frame p u fun f hf => hp f (List.mem_cons_of_mem _ hf)]
    exact at_put_of_apart (hp (field, config) List.mem_cons_self) hvalue
  · have hrest : final = put (parts field) (loaded (.str (serialized value))) data ↔
        ∀ f ∈ fields, ∀ u, At (parts f.1) data u → loaded (.str (serialized u)) = u := by
      rw [h.eq_iff]
      apply forall₃_congr
      intro f hf u
      rw [at_put_of_apart (happart f hf) hvalue]
    constructor
    · intro heq
      have hsame : At (parts field) data (loaded (.str (serialized value))) := heq ▸ hread
      rw [put_self hsame] at hrest
      intro f hf u hu
      rcases List.mem_cons.1 hf with rfl | hf
      · rw [hu.unique hvalue]
        exact hsame.unique hvalue
      · exact hrest.1 heq f hf u hu
    · intro hall
      rw [hall _ List.mem_cons_self value hvalue, put_self hvalue] at hrest
      exact hrest.2 fun f hf => hall f (List.mem_cons_of_mem _ hf)

variable (call) in
/-- Where every subject has a key and every field a value, encryption succeeds, and
decryption reads back what it can when it resolves the same subjects. -/
theorem decryptFields_encryptFields (hstrategy : encryption.strategy.Inverts)
    (happart : fields.Pairwise fun a b => Apart (parts a.1) (parts b.1))
    (hkeys : encryption.HasKeys event streamId fields)
    (hat : ∀ f ∈ fields, ∃ value, At (parts f.1) data value) :
    ∃ raw, encryption.encryptFields event streamId call fields data = .ok raw ∧
      (encryption.SameSubjects event streamId fields raw →
        ∃ final, encryption.decryptFields event.type streamId fields raw = .ok final ∧
          ReadBack fields data final) := by
  induction fields generalizing call data with
  | nil => exact ⟨data, rfl, fun _ => ⟨data, rfl, by simp, by simp⟩⟩
  | cons head fields ih =>
    obtain ⟨field, config⟩ := head
    obtain ⟨hhead, htail⟩ := List.pairwise_cons.1 happart
    obtain ⟨value, hvalue⟩ := hat _ List.mem_cons_self
    obtain ⟨subjectId, key, hsubject, hkey⟩ := hkeys _ List.mem_cons_self
    obtain ⟨encrypted, hencrypt, hdecrypt⟩ := hstrategy call (serialized value) key
    have hkeys' : encryption.HasKeys event streamId fields := fun f hf =>
      hkeys f (List.mem_cons_of_mem _ hf)
    have hat' : ∀ read, ∀ f ∈ fields, ∃ u, At (parts f.1) (put (parts field) read data) u := by
      intro read f hf
      obtain ⟨u, hu⟩ := hat f (List.mem_cons_of_mem _ hf)
      exact ⟨u, (at_put_of_apart (hhead f hf) hvalue).2 hu⟩
    -- The other fields are followed in the data as decryption leaves this field.
    obtain ⟨raw, hraw, hrest⟩ := ih (call + 1) htail hkeys'
      (hat' (loaded (.str (serialized value))))
    obtain ⟨hplace, hothers⟩ : At (parts field) raw (loaded (.str (serialized value))) ∧
        encryption.encryptFields event streamId (call + 1) fields
          (put (parts field) (.str encrypted) data) =
            .ok (put (parts field) (.str encrypted) raw) := by
      rw [← put_put hvalue]
      exact encryptFields_put _ hhead (at_put hvalue) hraw
    refine ⟨put (parts field) (.str encrypted) raw, ?_, ?_⟩
    · have hfield : encryption.encryptField event streamId call field data =
          .ok (put (parts field) (.str encrypted) data) :=
        encryptField_eq_ok.2 ⟨subjectId, value, encrypted, hsubject, hvalue,
          by simp [encryptValue, bind, Except.bind, hkey, hencrypt], rfl⟩
      exact bind_eq_ok.2 ⟨_, hfield, hothers⟩
    · intro hsame
      have hfield : encryption.decryptField event.type streamId field config
          (put (parts field) (.str encrypted) raw) = .ok raw := by
        rw [decryptField_of_encrypted (hsame.1.trans hsubject) hkey (at_put hplace) hdecrypt,
          put_put hplace, put_self hplace]
      obtain ⟨final, hfinal, hreadBack⟩ := hrest (hsame.2 raw hfield)
      exact ⟨final, bind_eq_ok.2 ⟨_, hfield, hfinal⟩, readBack_cons hhead hvalue hreadBack⟩

/-- Encryption starts from the dump. -/
theorem encrypt_eq_ok : encryption.encrypt event streamId = .ok raw ↔
    Undotted event.dump ∧ encryption.encryptFields event streamId 0 (encryptedFields event.type)
      event.dump = .ok raw := by
  unfold encrypt
  simp [bind_eq_ok, ofDict_eq_ok]

theorem decrypt_eq_ok : encryption.decrypt eventType raw streamId = .ok final ↔
    Undotted raw ∧ encryption.decryptFields eventType streamId (encryptedFields eventType) raw =
      .ok final := by
  unfold decrypt
  simp [bind_eq_ok, ofDict_eq_ok]

end Fields

/-- Every encrypted field is in the dump, and no string among them is a JSON text. -/
structure Recoverable (event : EventInstance) : Prop where
  undotted : Undotted event.dump
  fields : ∀ field ∈ encryptedFields event.type, ∃ value,
    getItem field.1 event.dump = .ok value ∧ ∀ s, value = .str s → loads s.toList = none

section RoundTrip
open Encryption
variable {K : Type} {encryption : Encryption K} {event : EventInstance} {streamId : StreamId}

theorem recoverable_iff (hundotted : Undotted event.dump)
    (hat : ∀ f ∈ encryptedFields event.type, ∃ value, At (parts f.1) event.dump value) :
    Recoverable event ↔ ∀ f ∈ encryptedFields event.type, ∀ value,
      At (parts f.1) event.dump value → loaded (.str (serialized value)) = value := by
  constructor
  · intro h f hf value hvalue
    obtain ⟨other, hother, hplain⟩ := h.fields f hf
    rw [loaded_serialized_iff (hvalue.wellFormed event.wellFormed.2),
      hvalue.unique (getPath_eq_ok.1 hother)]
    exact hplain
  · intro h
    refine ⟨hundotted, fun f hf => ?_⟩
    obtain ⟨value, hvalue⟩ := hat f hf
    exact ⟨value, getPath_eq_ok.2 hvalue,
      (loaded_serialized_iff (hvalue.wellFormed event.wellFormed.2)).1 (h f hf value hvalue)⟩

theorem at_of_encrypt {raw : Dict} (h : encryption.encrypt event streamId = .ok raw) :
    Undotted event.dump ∧
      ∀ f ∈ encryptedFields event.type, ∃ value, At (parts f.1) event.dump value := by
  obtain ⟨hundotted, h⟩ := encrypt_eq_ok.1 h
  refine ⟨hundotted, fun f hf => ?_⟩
  obtain ⟨subjectId, key, value, text, hfield⟩ :=
    encryptedAs_of_encryptFields (apart_encryptedFields event.type) h f hf
  exact ⟨value, hfield.held⟩

/-- A dump that has every field goes through encryption and decryption, and comes back as
it was if and only if it is recoverable. -/
theorem decrypt_encrypt (hstrategy : encryption.strategy.Inverts)
    (hkeys : encryption.HasKeys event streamId (encryptedFields event.type))
    (hsame : ∀ raw, encryption.encrypt event streamId = .ok raw →
      encryption.SameSubjects event streamId (encryptedFields event.type) raw)
    (hundotted : Undotted event.dump)
    (hat : ∀ f ∈ encryptedFields event.type, ∃ value, At (parts f.1) event.dump value) :
    ∃ raw final, encryption.encrypt event streamId = .ok raw ∧
      encryption.decrypt event.type raw streamId = .ok final ∧
      (final = event.dump ↔ Recoverable event) := by
  obtain ⟨raw, hraw, hrest⟩ := decryptFields_encryptFields 0 hstrategy
    (apart_encryptedFields event.type) hkeys hat
  have hencrypt : encryption.encrypt event streamId = .ok raw := encrypt_eq_ok.2 ⟨hundotted, hraw⟩
  obtain ⟨final, hfinal, hreadBack⟩ := hrest (hsame raw hencrypt)
  have hraw' : Undotted raw := undotted_of_keys (keys_encryptFields hraw) hundotted
  refine ⟨raw, final, hencrypt, decrypt_eq_ok.2 ⟨hraw', hfinal⟩, ?_⟩
  rw [recoverable_iff hundotted hat]
  exact hreadBack.eq_iff

/-- With a strategy that inverts itself, a key for every subject and the same subjects,
decryption gives back the dump if and only if it is recoverable. -/
theorem roundTrip_iff (hstrategy : encryption.strategy.Inverts)
    (hkeys : encryption.HasKeys event streamId (encryptedFields event.type))
    (hsame : ∀ raw, encryption.encrypt event streamId = .ok raw →
      encryption.SameSubjects event streamId (encryptedFields event.type) raw) :
    ((encryption.encrypt event streamId).bind fun raw =>
      encryption.decrypt event.type raw streamId) = .ok event.dump ↔ Recoverable event := by
  by_cases hdump : Undotted event.dump ∧
      ∀ f ∈ encryptedFields event.type, ∃ value, At (parts f.1) event.dump value
  · obtain ⟨raw, final, hencrypt, hdecrypt, hiff⟩ :=
      decrypt_encrypt hstrategy hkeys hsame hdump.1 hdump.2
    simp only [hencrypt, Except.bind, hdecrypt, Except.ok.injEq, hiff]
  · constructor
    · intro h
      obtain ⟨raw, hencrypt, -⟩ := bind_eq_ok.1 h
      exact absurd (at_of_encrypt hencrypt) hdump
    · intro h
      apply absurd _ hdump
      refine ⟨h.undotted, fun f hf => ?_⟩
      obtain ⟨value, hvalue, -⟩ := h.fields f hf
      exact ⟨value, getPath_eq_ok.1 hvalue⟩

end RoundTrip

section Stored
variable {K : Type} (encryption : Encryption K)
  (nameForType : EventType → Except SerdeError String)
  (typeForName : String → Except SerdeError EventType)
  (build : EventType → Dict → Except SerdeError EventInstance)

/-- `Serde` with this encryption; `build` is the construction of an event from its data. -/
def Encryption.serde : Serde EventInstance where
  nameForType event := nameForType event.type
  encrypt := encryption.encrypt
  construct name data streamId := do
    let eventType ← typeForName name
    let data ← encryption.decrypt eventType data streamId
    build eventType data

variable {encryption nameForType typeForName build} {event : WrappedEvent EventInstance}
  {streamId : StreamId} {name : String}

/-- Decryption knows a stream by its name. -/
theorem decryptFields_name {streamId' : StreamId} (hname : streamId.name = streamId'.name)
    (eventType : EventType) (fields : List (String × Encrypted)) :
    encryption.decryptFields eventType streamId fields =
      encryption.decryptFields eventType streamId' fields := by
  induction fields with
  | nil => rfl
  | cons field fields ih =>
    ext1 data
    have hfield : encryption.decryptField eventType streamId field.1 field.2 data =
        encryption.decryptField eventType streamId' field.1 field.2 data := by
      simp only [Encryption.decryptField, decryptSubject, hname]
    simp only [Encryption.decryptFields, hfield, ih]

theorem serde_construct_name {streamId' : StreamId} (h : streamId.name = streamId'.name)
    (name : String) (data : Dict) :
    (encryption.serde nameForType typeForName build).construct name data streamId =
      (encryption.serde nameForType typeForName build).construct name data streamId' := by
  simp only [Encryption.serde, Encryption.decrypt, decryptFields_name h]

/-- A recoverable event is deserialized as it was serialized. -/
theorem deserialize_serialize (hstrategy : encryption.strategy.Inverts)
    (hkeys : encryption.HasKeys event.event streamId (encryptedFields event.event.type))
    (hsame : ∀ raw, encryption.encrypt event.event streamId = .ok raw →
      encryption.SameSubjects event.event streamId (encryptedFields event.event.type) raw)
    (hname : nameForType event.event.type = .ok name)
    (htype : typeForName name = .ok event.event.type)
    (hbuild : build event.event.type event.event.dump = .ok event.event)
    (h : Recoverable event.event) :
    ∃ raw, (encryption.serde nameForType typeForName build).serialize streamId event = .ok raw ∧
      (encryption.serde nameForType typeForName build).deserialize raw = .ok event := by
  have hat : ∀ f ∈ encryptedFields event.event.type,
      ∃ value, At (parts f.1) event.event.dump value := by
    intro f hf
    obtain ⟨value, hvalue, -⟩ := h.fields f hf
    exact ⟨value, getPath_eq_ok.1 hvalue⟩
  obtain ⟨raw, final, hencrypt, hdecrypt, hiff⟩ :=
    decrypt_encrypt hstrategy hkeys hsame h.undotted hat
  rw [hiff.2 h] at hdecrypt
  have hserialize : (encryption.serde nameForType typeForName build).serialize streamId event =
      .ok { uuid := event.uuid, streamId, createdAt := event.createdAt, name, data := raw
            context := event.context, version := event.version } := by
    simp only [Serde.serialize, Encryption.serde, bind, Except.bind, hname, hencrypt]
    rfl
  refine ⟨_, hserialize, ?_⟩
  simp only [Serde.deserialize, Encryption.serde, bind, Except.bind, htype, hdecrypt, hbuild]
  rfl

end Stored

section Example

/-- An order: its customer is the subject, and its note and the total of its bill are
encrypted. -/
def orderType : EventType where
  hints := [("customer", .annotated [.dataSubject]),
    ("note", .annotated [.encrypted { maskValue := .str "[REDACTED]" }]),
    ("bill", .type [("total", .annotated [.encrypted { maskValue := .int 0 }]),
      ("currency", .type [])])]
  modelFields := [("customer", [.dataSubject]), ("note", [.other]), ("bill", [])]
  wellNamed := by decide

def orderWith (note : String) : EventInstance where
  type := orderType
  dump := [("customer", .str "Ann"), ("note", .str note),
    ("bill", .obj [("total", .int 42), ("currency", .str "EUR")])]
  getattr name := if name = "customer" then .ok (.json (.str "Ann")) else .error .attributeError
  wellFormed := by simp [WellFormed, WellFormedFields]

/-- The key, and then the text backwards. -/
def backwards : EncryptionStrategy String where
  encrypt _ data key := .ok (String.ofList (key.toList ++ data.toList.reverse))
  decrypt value key :=
    match value with
    | .str text => .ok (.str (String.ofList (text.toList.drop key.toList.length).reverse))
    | _ => .error .typeError

theorem backwards_inverts : backwards.Inverts := by
  intro call data key
  exact ⟨_, rfl, by simp [backwards]⟩

def annsKey : Encryption String where
  strategy := backwards
  keyStorage := ⟨fun subjectId =>
    .ok (if subjectId = .json (.str "Ann") then some "key-" else none)⟩

theorem annsKey_hasKeys (note : String) :
    annsKey.HasKeys (orderWith note) { uuid := 1 } (encryptedFields orderType) := by
  have hsubject : ∀ f ∈ encryptedFields orderType,
      encryptSubject (orderWith note) { uuid := 1 } f.1 = .ok (.json (.str "Ann")) := by
    intro f hf
    obtain rfl | rfl := List.mem_pair.1 hf <;> rfl
  intro f hf
  exact ⟨_, "key-", hsubject f hf, rfl⟩

theorem annsKey_sameSubjects : ∀ note ∈ ["fragile", "12"],
    ∀ raw, annsKey.encrypt (orderWith note) { uuid := 1 } = .ok raw →
      annsKey.SameSubjects (orderWith note) { uuid := 1 } (encryptedFields orderType) raw := by
  intro note hnote raw hraw
  obtain rfl | rfl := List.mem_pair.1 hnote
  all_goals
    obtain rfl := Except.ok.inj hraw
    refine ⟨rfl, fun next hnext => ⟨?_, fun _ _ => trivial⟩⟩
    obtain rfl := Except.ok.inj hnext
    rfl

theorem roundTrip_iff_fragile :
    ((annsKey.encrypt (orderWith "fragile") { uuid := 1 }).bind fun raw =>
      annsKey.decrypt orderType raw { uuid := 1 }) = .ok (orderWith "fragile").dump ↔
        Recoverable (orderWith "fragile") :=
  roundTrip_iff backwards_inverts (annsKey_hasKeys "fragile") (annsKey_sameSubjects _ (by simp))

/-- The note "12" comes back as the number 12. -/
theorem roundTrip_number :
    annsKey.strategy.Inverts ∧
      annsKey.HasKeys (orderWith "12") { uuid := 1 } (encryptedFields orderType) ∧
      (∀ raw, annsKey.encrypt (orderWith "12") { uuid := 1 } = .ok raw →
        annsKey.SameSubjects (orderWith "12") { uuid := 1 } (encryptedFields orderType) raw) ∧
      ((annsKey.encrypt (orderWith "12") { uuid := 1 }).bind fun raw =>
        annsKey.decrypt orderType raw { uuid := 1 }) =
          .ok [("customer", .str "Ann"), ("note", .int 12),
            ("bill", .obj [("total", .int 42), ("currency", .str "EUR")])] ∧
      lookup "note" (orderWith "12").dump = some (.str "12") :=
  ⟨backwards_inverts, annsKey_hasKeys "12", annsKey_sameSubjects _ (by simp), by rfl, rfl⟩

end Example

end EventSourcery
